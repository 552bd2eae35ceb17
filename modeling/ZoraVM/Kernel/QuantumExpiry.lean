import ZoraVM.Kernel.PickNext
import ZoraVM.Kernel.UserModeScheduling

namespace ZoraVM.Kernel

open Foundation

variable {s : SchedulerState} {i k preemptions : Nat}

def quantumExpires (s : SchedulerState) : Bool := s.gScheduler.currentQuantumRemaining ≤ 1

def findsAnother (g : Scheduler) : Bool :=
  decide (nextProcess g ≠ none ∧ nextProcess g ≠ g.currentProcess)

structure Armed (s : SchedulerState) : Prop where
  started : Started s
  preemption : s.gScheduler.preemptionEnabled = true

section Reachable

theorem initialized_schedule (s : SchedulerState) :
    (schedulerSchedule s).gSchedulerInitialized = s.gSchedulerInitialized := by
  unfold schedulerSchedule
  split
  · rfl
  · dsimp only
    split
    · rfl
    · generalize hold : s.gScheduler.currentProcess = old
      generalize hnext : (schedulerPickNextProcess s.gScheduler).1.or _ = next
      cases next with
      | none => exact requeueOld_initialized _ old
      | some q => rw [switchTo_initialized, requeueOld_initialized]

theorem initialized_preempt (s : SchedulerState) :
    (schedulerPreempt s).gSchedulerInitialized = s.gSchedulerInitialized := by
  rw [schedulerPreempt]
  split
  · rfl
  · exact initialized_schedule _

theorem initialized_call (s : SchedulerState) (c : SchedulerCall) :
    (schedulerCall s c).gSchedulerInitialized = s.gSchedulerInitialized := by
  cases c with
  | enqueueReady p => cases p <;> rfl
  | schedule => exact initialized_schedule s
  | yield =>
    rw [schedulerCall, schedulerYield]
    split
    · rfl
    · exact initialized_schedule _
  | preempt => exact initialized_preempt s
  | tick =>
    rw [schedulerCall, schedulerTick]
    split
    · rfl
    · dsimp only
      split
      · exact initialized_preempt _
      · rfl
  | blockProcess p =>
    cases p with
    | none => rfl
    | some p =>
      rw [schedulerCall, block_eq]
      split
      · exact initialized_schedule _
      · rfl
  | unblockProcess p => cases p <;> rfl

theorem initialized_event (s : SchedulerState) (e : SchedulerEvent) :
    (schedulerEvent s e).gSchedulerInitialized = s.gSchedulerInitialized := by
  cases e with
  | call c => exact initialized_call s c
  | enqueueBlocked p => cases p <;> rfl
  | removeFromQueue p => cases p <;> rfl
  | _ => rfl

theorem SchedulerReachable.initialized (h : SchedulerReachable s) :
    s.gSchedulerInitialized = true := by
  obtain ⟨processes, privilege, events, hrun⟩ := h
  refine hrun.invariant (P := fun s => s.gSchedulerInitialized = true) rfl ?_
  intro s e s' h _ hs
  obtain rfl := Option.some.inj hs
  exact (initialized_event s e).trans h

end Reachable

section Tick

theorem pick_queues (g : Scheduler) : ∃ ready queues, (schedulerPickNextProcess g).2 =
    { g with readyQueue := ready, priorityQueues := queues } := by
  unfold schedulerPickNextProcess
  split
  · exact ⟨g.readyQueue, _, rfl⟩
  · exact ⟨_, g.priorityQueues, rfl⟩

structure Rescheduled (s s' : SchedulerState) : Prop where
  preemption : s'.gScheduler.preemptionEnabled = s.gScheduler.preemptionEnabled
  preemptions : s'.gScheduler.totalPreemptions = s.gScheduler.totalPreemptions
  quantum : s'.gScheduler.quantumMs = s.gScheduler.quantumMs
  remaining : s'.gScheduler.currentQuantumRemaining =
    if findsAnother s.gScheduler then s.gScheduler.quantumMs
    else s.gScheduler.currentQuantumRemaining

theorem schedule_rescheduled (hs : Started s) : Rescheduled s (schedulerSchedule s) := by
  obtain ⟨ready, queues, hpick⟩ := pick_queues s.gScheduler
  by_cases hsame : nextProcess s.gScheduler = s.gScheduler.currentProcess
  · have hnone : findsAnother s.gScheduler = false := by simp [findsAnother, hsame]
    rw [schedule_same hs hsame]
    constructor <;> simp [picking, hpick, hnone]
  · cases hnext : nextProcess s.gScheduler with
    | none =>
      have hcur : s.gScheduler.currentProcess ≠ none := fun h => hsame (hnext.trans h.symm)
      have hnone : findsAnother s.gScheduler = false := by simp [findsAnother, hnext]
      rw [schedule_none hs hcur hnext]
      constructor <;> simp [requeueOld_ready, picking, hpick, hnone]
    | some q =>
      have hcur : s.gScheduler.currentProcess ≠ some q := fun h => hsame (hnext.trans h.symm)
      have hfound : findsAnother s.gScheduler = true := by
        simp [findsAnother, hnext, hcur.symm]
      rw [schedule_some hs hcur hnext]
      constructor <;> simp [switchTo_scheduler, requeueOld_ready, picking, hpick, hfound]

structure Ticked (s s' : SchedulerState) : Prop where
  armed : Armed s'
  quantum : s'.gScheduler.quantumMs = s.gScheduler.quantumMs
  preemptions : s'.gScheduler.totalPreemptions = s.gScheduler.totalPreemptions +
    if quantumExpires s then 1 else 0
  remaining : s'.gScheduler.currentQuantumRemaining =
    if quantumExpires s && findsAnother s.gScheduler then s.gScheduler.quantumMs
    else s.gScheduler.currentQuantumRemaining - 1

theorem findsAnother_counting (g : Scheduler) (remaining preemptions : Nat) :
    findsAnother { g with currentQuantumRemaining := remaining, totalPreemptions := preemptions } =
      findsAnother g := by
  unfold findsAnother nextProcess schedulerPickNextProcess
  dsimp only
  cases g.algorithm <;> rfl

theorem tick_ticked (h : Armed s) : Ticked s (schedulerTick s) := by
  have hgo : ¬ (!s.gSchedulerInitialized || !s.gScheduler.schedulingEnabled) = true := by
    simp [h.started.initialized, h.started.enabled]
  by_cases hexp : s.gScheduler.currentQuantumRemaining ≤ 1
  · have hexpires : quantumExpires s = true := by simpa [quantumExpires] using hexp
    have hentry : scheduleEntry s .tick = some (withScheduler s fun g => { g with
        currentQuantumRemaining := g.currentQuantumRemaining - 1
        totalPreemptions := g.totalPreemptions + 1 }) := by
      rw [scheduleEntry, if_neg hgo, if_pos ⟨by omega, h.preemption⟩]
    obtain ⟨hcall, hinit, henabled⟩ := schedulerCall_entry hentry
    have hs := h.started
    have hre := schedule_rescheduled (s := withScheduler s fun g => { g with
        currentQuantumRemaining := g.currentQuantumRemaining - 1
        totalPreemptions := g.totalPreemptions + 1 }) ⟨hs.initialized, hs.enabled⟩
    have hstarted := started_call h.started .tick
    rw [← hcall] at hre
    change Rescheduled _ (schedulerTick s) at hre
    refine ⟨⟨hstarted, hre.preemption.trans h.preemption⟩, hre.quantum, ?_, ?_⟩
    · rw [hexpires, if_pos rfl]
      exact hre.preemptions
    · have hfinds := findsAnother_counting s.gScheduler (s.gScheduler.currentQuantumRemaining - 1)
        (s.gScheduler.totalPreemptions + 1)
      have hrem := hre.remaining
      simp only [withScheduler, hfinds] at hrem
      simpa only [hexpires, Bool.true_and] using hrem
  · have hlater : quantumExpires s = false := by simpa [quantumExpires] using hexp
    have htick : schedulerTick s = withScheduler s fun g =>
        { g with currentQuantumRemaining := g.currentQuantumRemaining - 1 } := by
      have hnot : ¬ (s.gScheduler.currentQuantumRemaining - 1 = 0 ∧
          s.gScheduler.preemptionEnabled = true) := by omega
      rw [schedulerTick, if_neg hgo]
      exact if_neg hnot
    rw [htick]
    exact ⟨⟨⟨h.started.initialized, h.started.enabled⟩, h.preemption⟩, rfl,
      by simp [withScheduler, hlater], by simp [withScheduler, hlater]⟩

end Tick

section Run

-- From the first preemption on, every one of them is paid for by a whole quantum of ticks.
structure Paced (preemptions quantum i : Nat) (s : SchedulerState) : Prop where
  armed : Armed s
  quantum_eq : s.gScheduler.quantumMs = quantum
  pace : s.gScheduler.totalPreemptions = preemptions ∨
    (preemptions ≤ s.gScheduler.totalPreemptions ∧
      (s.gScheduler.totalPreemptions - preemptions) * quantum ≤
        i + s.gScheduler.currentQuantumRemaining ∧
      s.gScheduler.currentQuantumRemaining ≤ quantum)

variable {quantum : Nat}

theorem Paced.tick (h : Paced preemptions quantum i s)
    (hswitch : quantumExpires s = true → findsAnother s.gScheduler = true) :
    Paced preemptions quantum (i + 1) (schedulerTick s) := by
  obtain ⟨harmed, hquantum, hpre, hrem⟩ := tick_ticked h.armed
  refine ⟨harmed, hquantum.trans h.quantum_eq, ?_⟩
  by_cases hexp : quantumExpires s = true
  · have hle : s.gScheduler.currentQuantumRemaining ≤ 1 := by simpa [quantumExpires] using hexp
    rw [hexp, if_pos rfl] at hpre
    rw [hexp, hswitch hexp, Bool.and_self, if_pos rfl, h.quantum_eq] at hrem
    refine .inr ⟨?_, ?_, hrem.le⟩
    · rcases h.pace with heq | ⟨hge, -, -⟩ <;> omega
    · rw [hpre, hrem]
      rcases h.pace with heq | ⟨hge, hpaid, -⟩
      · rw [heq, Nat.add_sub_cancel_left, Nat.one_mul]
        omega
      · rw [Nat.succ_sub hge, Nat.succ_mul]
        omega
  · have hlater : quantumExpires s = false := by simpa using hexp
    have hlt : 1 < s.gScheduler.currentQuantumRemaining := by
      simpa [quantumExpires] using hlater
    rw [hlater, if_neg Bool.false_ne_true, Nat.add_zero] at hpre
    rw [hlater, Bool.false_and, if_neg Bool.false_ne_true] at hrem
    rw [hpre, hrem]
    rcases h.pace with heq | ⟨hge, hpaid, hfit⟩
    · exact .inl heq
    · exact .inr ⟨hge, by omega, by omega⟩

theorem paced_ticks (harmed : Armed s)
    (hswitch : ∀ i < k, quantumExpires (schedulerTick^[i] s) = true →
      findsAnother (schedulerTick^[i] s).gScheduler = true) :
    Paced s.gScheduler.totalPreemptions s.gScheduler.quantumMs k (schedulerTick^[k] s) := by
  induction k with
  | zero => exact ⟨harmed, rfl, .inl rfl⟩
  | succ k ih =>
    rw [Function.iterate_succ_apply']
    exact (ih fun i hi => hswitch i (Nat.lt_succ_of_lt hi)).tick (hswitch k (Nat.lt_succ_self k))

theorem Paced.last_tick (h : Paced preemptions quantum i s) (hq : 0 < quantum) :
    (schedulerTick s).gScheduler.totalPreemptions ≤ preemptions + ((i + 1) / quantum + 1) := by
  have hpre := (tick_ticked h.armed).preemptions
  by_cases hexp : quantumExpires s = true
  · have hle : s.gScheduler.currentQuantumRemaining ≤ 1 := by simpa [quantumExpires] using hexp
    rw [hexp, if_pos rfl] at hpre
    rw [hpre]
    rcases h.pace with heq | ⟨hge, hpaid, -⟩
    · rw [heq]
      exact Nat.add_le_add_left (Nat.le_add_left 1 _) preemptions
    · have hquanta := (Nat.le_div_iff_mul_le hq).mpr (hpaid.trans (Nat.add_le_add_left hle i))
      omega
  · rw [if_neg hexp, Nat.add_zero] at hpre
    rw [hpre]
    rcases h.pace with heq | ⟨hge, hpaid, hfit⟩
    · rw [heq]
      exact Nat.le_add_right _ _
    · have hquanta := (Nat.le_div_iff_mul_le hq).mpr (hpaid.trans (Nat.add_le_add_left hfit i))
      have hmono : i / quantum ≤ (i + 1) / quantum := Nat.div_le_div_right (Nat.le_succ i)
      rw [Nat.add_div_right i hq] at hquanta
      omega

theorem preemptions_bounded (hreach : SchedulerReachable s)
    (henabled : s.gScheduler.schedulingEnabled = true)
    (hpreemption : s.gScheduler.preemptionEnabled = true) (hq : 0 < s.gScheduler.quantumMs)
    (hswitch : ∀ i, i + 1 < k → quantumExpires (schedulerTick^[i] s) = true →
      findsAnother (schedulerTick^[i] s).gScheduler = true) :
    (schedulerTick^[k] s).gScheduler.totalPreemptions ≤
      s.gScheduler.totalPreemptions + (k / s.gScheduler.quantumMs + 1) := by
  have harmed : Armed s := ⟨⟨hreach.initialized, henabled⟩, hpreemption⟩
  cases k with
  | zero => exact Nat.le_add_right _ _
  | succ k =>
    rw [Function.iterate_succ_apply']
    exact (paced_ticks harmed fun i hi => hswitch i (Nat.succ_lt_succ hi)).last_tick hq

def twoReady : SchedulerState :=
  ranEvents [.setQuantum 2, .start, .call (.enqueueReady (some 1)), .call (.enqueueReady (some 2))]

theorem preemptions_bounded_two_ready :
    (schedulerTick^[3] twoReady).gScheduler.totalPreemptions ≤ 0 + (3 / 2 + 1) :=
  preemptions_bounded (schedulerReachable_ran _) rfl rfl (by decide) fun i hi =>
    match i, hi with
    | 0, _ => by decide
    | 1, _ => by decide

theorem every_tick_preempts :
    ¬ ∀ (s : SchedulerState) (k : Nat), SchedulerReachable s →
      s.gScheduler.schedulingEnabled = true → s.gScheduler.preemptionEnabled = true →
      0 < s.gScheduler.quantumMs →
      (schedulerTick^[k] s).gScheduler.totalPreemptions ≤
        s.gScheduler.totalPreemptions + (k / s.gScheduler.quantumMs + 1) := by
  intro hall
  have h := hall (ranEvents [.start]) 2 (schedulerReachable_ran _) rfl rfl (by decide)
  exact absurd h (by decide)

end Run

end ZoraVM.Kernel
