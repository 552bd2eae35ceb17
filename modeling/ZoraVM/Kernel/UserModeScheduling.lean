import ZoraVM.Kernel.InterruptPrivilege

namespace ZoraVM.Kernel

open Foundation

variable {s t e : SchedulerState} {c : SchedulerCall} {p q : Nat}

def scheduleEntry (s : SchedulerState) : SchedulerCall → Option SchedulerState
  | .schedule => some s
  | .yield =>
    if !s.gSchedulerInitialized then none
    else some (withScheduler s fun g => { g with totalYields := g.totalYields + 1 })
  | .preempt =>
    if !s.gSchedulerInitialized || !s.gScheduler.preemptionEnabled then none
    else some (withScheduler s fun g => { g with totalPreemptions := g.totalPreemptions + 1 })
  | .tick =>
    if !s.gSchedulerInitialized || !s.gScheduler.schedulingEnabled then none
    else if s.gScheduler.currentQuantumRemaining - 1 = 0 ∧ s.gScheduler.preemptionEnabled = true then
      some (withScheduler s fun g => { g with
        currentQuantumRemaining := g.currentQuantumRemaining - 1
        totalPreemptions := g.totalPreemptions + 1 })
    else none
  | .blockProcess (some p) =>
    if some p = s.gScheduler.currentProcess then some (parked s p) else none
  | _ => none

def CurrentInUserMode (s : SchedulerState) : Prop :=
  ∀ p, s.gScheduler.currentProcess = some p → (s.processes p).pid > 0 →
    s.gPrivilegeContext.currentLevel = privilegeUser

def userProcessStays (s : SchedulerState) : Bool :=
  s.gScheduler.currentProcess.any fun p => (s.processes p).pid > 0 ∧
    (nextProcess s.gScheduler = none ∨ nextProcess s.gScheduler = some p)

theorem schedulerCall_entry (h : scheduleEntry s c = some e) :
    schedulerCall s c = schedulerSchedule e ∧
      e.gSchedulerInitialized = s.gSchedulerInitialized ∧
      e.gScheduler.schedulingEnabled = s.gScheduler.schedulingEnabled := by
  cases c with
  | schedule =>
    obtain rfl := Option.some.inj h
    exact ⟨rfl, rfl, rfl⟩
  | yield =>
    rw [scheduleEntry, Option.ite_none_left_eq_some] at h
    obtain ⟨hgo, he⟩ := h
    obtain rfl := Option.some.inj he
    exact ⟨if_neg hgo, rfl, rfl⟩
  | preempt =>
    rw [scheduleEntry, Option.ite_none_left_eq_some] at h
    obtain ⟨hgo, he⟩ := h
    obtain rfl := Option.some.inj he
    exact ⟨if_neg hgo, rfl, rfl⟩
  | tick =>
    rw [scheduleEntry, Option.ite_none_left_eq_some, Option.ite_none_right_eq_some] at h
    obtain ⟨hgo, hexpires, he⟩ := h
    obtain rfl := Option.some.inj he
    obtain ⟨hinit, -⟩ : s.gSchedulerInitialized = true ∧ s.gScheduler.schedulingEnabled = true := by
      simpa using hgo
    have hpreempt : ¬ (!s.gSchedulerInitialized || !s.gScheduler.preemptionEnabled) = true := by
      simp [hinit, hexpires.2]
    refine ⟨(if_neg hgo).trans ((if_pos hexpires).trans ?_), rfl, rfl⟩
    exact if_neg hpreempt
  | blockProcess p =>
    cases p with
    | none => cases h
    | some p =>
      rw [scheduleEntry, Option.ite_none_right_eq_some] at h
      obtain ⟨hcurrent, he⟩ := h
      obtain rfl := Option.some.inj he
      exact ⟨if_pos hcurrent, rfl, rfl⟩
  | enqueueReady p => cases h
  | unblockProcess p => cases h

structure Started (s : SchedulerState) : Prop where
  initialized : s.gSchedulerInitialized = true
  enabled : s.gScheduler.schedulingEnabled = true

theorem pick_frame (g : Scheduler) :
    (schedulerPickNextProcess g).2.currentProcess = g.currentProcess ∧
      (schedulerPickNextProcess g).2.idleProcess = g.idleProcess ∧
      (schedulerPickNextProcess g).2.schedulingEnabled = g.schedulingEnabled := by
  unfold schedulerPickNextProcess
  split <;> exact ⟨rfl, rfl, rfl⟩

def picking (s : SchedulerState) : SchedulerState :=
  { s with
    gPrivilegeContext := privilegeEnterKernelMode s.gPrivilegeContext
    gScheduler := (schedulerPickNextProcess s.gScheduler).2 }

theorem schedule_eq (hs : Started s) : schedulerSchedule s =
    if nextProcess s.gScheduler = s.gScheduler.currentProcess then picking s
    else switchTo (requeueOld (picking s) s.gScheduler.currentProcess) s.gScheduler.currentProcess
      (nextProcess s.gScheduler) := by
  have hgo : ¬ (!s.gSchedulerInitialized || !s.gScheduler.schedulingEnabled) = true := by
    simp [hs.initialized, hs.enabled]
  have hidle := (pick_frame s.gScheduler).2.1
  rw [schedulerSchedule, if_neg hgo]
  dsimp only
  rw [hidle]
  rfl

theorem schedule_same (hs : Started s) (h : nextProcess s.gScheduler = s.gScheduler.currentProcess) :
    schedulerSchedule s = picking s := by rw [schedule_eq hs, if_pos h]

theorem schedule_none (hs : Started s) (hne : s.gScheduler.currentProcess ≠ none)
    (h : nextProcess s.gScheduler = none) :
    schedulerSchedule s = requeueOld (picking s) s.gScheduler.currentProcess := by
  rw [schedule_eq hs, h, if_neg hne.symm, switchTo]

theorem schedule_some (hs : Started s) (hne : s.gScheduler.currentProcess ≠ some q)
    (h : nextProcess s.gScheduler = some q) : schedulerSchedule s =
      switchTo (requeueOld (picking s) s.gScheduler.currentProcess) s.gScheduler.currentProcess
        (some q) := by
  rw [schedule_eq hs, h, if_neg hne.symm]

theorem current_picking (s : SchedulerState) :
    (picking s).gScheduler.currentProcess = s.gScheduler.currentProcess :=
  (pick_frame s.gScheduler).1

theorem level_picking (s : SchedulerState) :
    (picking s).gPrivilegeContext.currentLevel = privilegeKernel := enterKernelMode_level _

theorem current_requeueOld (s : SchedulerState) (old : Option Nat) :
    (requeueOld s old).gScheduler.currentProcess = s.gScheduler.currentProcess := by
  rw [requeueOld_ready]

theorem started_picking (hs : Started s) : Started (picking s) :=
  ⟨hs.initialized, (pick_frame s.gScheduler).2.2.trans hs.enabled⟩

theorem started_requeueOld (hs : Started s) (old : Option Nat) : Started (requeueOld s old) := by
  refine ⟨(requeueOld_initialized s old).trans hs.initialized, ?_⟩
  rw [requeueOld_ready]
  exact hs.enabled

theorem started_switchTo (hs : Started s) (old next : Option Nat) : Started (switchTo s old next) := by
  cases next with
  | none => exact hs
  | some q =>
    refine ⟨(switchTo_initialized s old q).trans hs.initialized, ?_⟩
    rw [switchTo_scheduler]
    exact hs.enabled

theorem started_schedule (hs : Started s) : Started (schedulerSchedule s) := by
  rw [schedule_eq hs]
  split
  · exact started_picking hs
  · exact started_switchTo (started_requeueOld (started_picking hs) _) _ _

theorem started_withScheduler (hs : Started s) {f : Scheduler → Scheduler}
    (hf : (f s.gScheduler).schedulingEnabled = s.gScheduler.schedulingEnabled) :
    Started (withScheduler s f) :=
  ⟨hs.initialized, hf.trans hs.enabled⟩

theorem started_preempt (hs : Started s) : Started (schedulerPreempt s) := by
  rw [schedulerPreempt]
  split
  · exact hs
  · exact started_schedule (started_withScheduler hs rfl)

theorem started_call (hs : Started s) (c : SchedulerCall) : Started (schedulerCall s c) := by
  cases c with
  | enqueueReady p => cases p <;> exact ⟨hs.initialized, hs.enabled⟩
  | schedule => exact started_schedule hs
  | yield =>
    rw [schedulerCall, schedulerYield]
    split
    · exact hs
    · exact started_schedule (started_withScheduler hs rfl)
  | preempt => exact started_preempt hs
  | tick =>
    have hticked : Started (withScheduler s fun g =>
        { g with currentQuantumRemaining := g.currentQuantumRemaining - 1 }) :=
      started_withScheduler hs rfl
    rw [schedulerCall, schedulerTick]
    split
    · exact hs
    · dsimp only
      split
      · exact started_preempt hticked
      · exact hticked
  | blockProcess p =>
    cases p with
    | none => exact hs
    | some p =>
      have hparked : Started (parked s p) := ⟨hs.initialized, hs.enabled⟩
      rw [schedulerCall, block_eq]
      split
      · exact started_schedule hparked
      · exact hparked
  | unblockProcess p => cases p <;> exact ⟨hs.initialized, hs.enabled⟩

theorem started_entry (hs : Started s) (h : scheduleEntry s c = some e) : Started e := by
  obtain ⟨-, hinit, henabled⟩ := schedulerCall_entry h
  exact ⟨hinit.trans hs.initialized, henabled.trans hs.enabled⟩

theorem in_user_mode_at_kernel_level (hlevel : t.gPrivilegeContext.currentLevel = privilegeKernel) :
    CurrentInUserMode t ↔
      (t.gScheduler.currentProcess.any fun p => (t.processes p).pid > 0) = false := by
  have hkernel : t.gPrivilegeContext.currentLevel ≠ privilegeUser := by
    rw [hlevel]
    decide
  cases hcurrent : t.gScheduler.currentProcess with
  | none =>
    refine iff_of_true ?_ rfl
    intro p hp
    rw [hcurrent] at hp
    cases hp
  | some p =>
    rw [Option.any_some, decide_eq_false_iff_not]
    constructor
    · intro h hpid
      exact hkernel (h p hcurrent hpid)
    · intro hpid q hq hqpid
      rw [hcurrent] at hq
      obtain rfl := Option.some.inj hq
      exact absurd hqpid hpid

theorem switchTo_pid (s : SchedulerState) (old : Option Nat) (p q : Nat) :
    ((switchTo s old (some q)).processes p).pid = (s.processes p).pid := by
  have hpid := setProcessState_pid s q .running p
  unfold switchTo schedulerContextSwitch
  dsimp only [withScheduler] at hpid ⊢
  split <;> exact hpid

theorem user_mode_after_switch (s : SchedulerState) (old : Option Nat)
    (hlevel : s.gPrivilegeContext.currentLevel = privilegeKernel) :
    CurrentInUserMode (switchTo s old (some q)) := by
  intro p hp hpid
  rw [switchTo_scheduler] at hp
  obtain rfl := Option.some.inj hp
  rw [switchTo_pid] at hpid
  rw [switchTo_privilege, if_pos hpid]
  exact (inUserMode_enterUserMode hlevel).1

theorem user_mode_schedule_iff (hs : Started s) :
    CurrentInUserMode (schedulerSchedule s) ↔ userProcessStays s = false := by
  have hold := requeueOld_privilege (picking s) s.gScheduler.currentProcess
  rcases Decidable.em (nextProcess s.gScheduler = s.gScheduler.currentProcess) with hsame | hne
  · rw [schedule_same hs hsame, in_user_mode_at_kernel_level (level_picking s), current_picking,
      userProcessStays, hsame]
    cases s.gScheduler.currentProcess with
    | none => exact Iff.rfl
    | some p => simp [picking]
  · cases hnext : nextProcess s.gScheduler with
    | none =>
      rw [hnext] at hne
      rw [schedule_none hs (Ne.symm hne) hnext, in_user_mode_at_kernel_level, current_requeueOld,
        current_picking, userProcessStays, hnext]
      · cases s.gScheduler.currentProcess with
        | none => exact Iff.rfl
        | some p => simp [requeueOld_pid, picking]
      · rw [hold]
        exact level_picking s
    | some q =>
      rw [hnext] at hne
      rw [schedule_some hs (Ne.symm hne) hnext]
      refine iff_of_true (user_mode_after_switch _ _ ?_) ?_
      · rw [hold]
        exact level_picking s
      · rw [userProcessStays, hnext]
        cases hcurrent : s.gScheduler.currentProcess with
        | none => rfl
        | some p =>
          rw [hcurrent] at hne
          simpa using fun _ => hne

theorem schedule_keeps_user_mode_iff {processes : Nat → Process} {privilege : PrivilegeContext}
    {calls : List SchedulerCall}
    (hrun : SchedulerRun (fun _ _ => True) processes privilege calls s)
    (hentry : scheduleEntry s c = some e) :
    schedulerCall s c = schedulerSchedule e ∧
      (CurrentInUserMode (schedulerCall s c) ↔ userProcessStays e = false) := by
  have hs : Started s := by
    refine hrun.invariant ⟨rfl, rfl⟩ ?_
    intro s c s' hs _ hstep
    obtain rfl := Option.some.inj hstep
    exact started_call hs c
  have hcall := (schedulerCall_entry hentry).1
  refine ⟨hcall, ?_⟩
  rw [hcall]
  exact user_mode_schedule_iff (started_entry hs hentry)

def oneReady : SchedulerState :=
  schedulerEnqueueReady (started numbered (privilegeInit 0x1000 0x2000)) (some 1)

def oneYields : SchedulerState :=
  withScheduler oneReady fun g => { g with totalYields := g.totalYields + 1 }

theorem schedule_keeps_user_mode_one :
    schedulerCall oneReady .yield = schedulerSchedule oneYields ∧
      (CurrentInUserMode (schedulerCall oneReady .yield) ↔ userProcessStays oneYields = false) :=
  schedule_keeps_user_mode_iff (.call (i := .enqueueReady (some 1)) .start trivial rfl) rfl

theorem yield_leaves_kernel_level :
    ¬ ∀ (processes : Nat → Process) (privilege : PrivilegeContext) (calls : List SchedulerCall)
      (s e : SchedulerState) (c : SchedulerCall),
      SchedulerRun (fun _ _ => True) processes privilege calls s → scheduleEntry s c = some e →
      CurrentInUserMode (schedulerCall s c) := by
  intro hall
  have hrun : SchedulerRun (fun _ _ => True) numbered (privilegeInit 0x1000 0x2000)
      [.enqueueReady (some 1), .yield] (schedulerSchedule oneYields) :=
    .call (.call .start trivial rfl) trivial rfl
  have h := hall _ _ _ _ _ .yield hrun rfl 1 rfl (by decide)
  exact absurd h (by decide)

end ZoraVM.Kernel
