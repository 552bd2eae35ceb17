import ZoraVM.Foundation.Run
import ZoraVM.Kernel.Scheduler

namespace ZoraVM.Kernel

open Foundation

inductive SchedulerCall where
  | enqueueReady (process : Option Nat)
  | schedule
  | yield
  | preempt
  | tick
  | blockProcess (process : Option Nat)
  | unblockProcess (process : Option Nat)
  deriving DecidableEq, Repr

def schedulerCall (s : SchedulerState) : SchedulerCall → SchedulerState
  | .enqueueReady p => schedulerEnqueueReady s p
  | .schedule => schedulerSchedule s
  | .yield => schedulerYield s
  | .preempt => schedulerPreempt s
  | .tick => schedulerTick s
  | .blockProcess p => schedulerBlockProcess s p
  | .unblockProcess p => schedulerUnblockProcess s p

def SchedulerCall.handed : SchedulerCall → Option Nat
  | .enqueueReady p => p
  | .blockProcess p => p
  | _ => none

def places (g : Scheduler) : List Nat :=
  g.currentProcess.toList ++ g.readyQueue ++ g.blockedQueue

-- What the callers of the scheduler are promised to respect.
def permitted (s : SchedulerState) : SchedulerCall → Bool
  | .enqueueReady (some p) => decide (p ∉ places s.gScheduler)
  | .unblockProcess (some p) => decide (p ∈ s.gScheduler.blockedQueue)
  | _ => true

def switchable (g : Scheduler) : Bool :=
  decide (g.currentProcess = none ∨ g.readyQueue ≠ [])

def keepsPlaces (s : SchedulerState) : SchedulerCall → Bool
  | .schedule | .yield | .preempt => switchable s.gScheduler
  | .tick => decide (1 < s.gScheduler.currentQuantumRemaining) || switchable s.gScheduler
  | .blockProcess (some p) =>
    decide (s.gScheduler.currentProcess = some p → queueRemove s.gScheduler.readyQueue p ≠ [])
  | _ => true

-- The globals of a fresh program image around any set of processes.
def coldBoot (processes : Nat → Process) (privilege : PrivilegeContext) : SchedulerState where
  gScheduler := ⟨.roundRobin, none, none, [], [], [], 0, 0, 0, 0, 0, 0, false, false⟩
  gSchedulerInitialized := false
  processes := processes
  gPrivilegeContext := privilege

def started (processes : Nat → Process) (privilege : PrivilegeContext) : SchedulerState :=
  schedulerStart (schedulerInit (coldBoot processes privilege))

abbrev SchedulerRun (allowed : SchedulerState → SchedulerCall → Prop)
    (processes : Nat → Process) (privilege : PrivilegeContext) :=
  Run (fun s c => some (schedulerCall s c)) allowed (started processes privilege)

def OnePlace (calls : List SchedulerCall) (s : SchedulerState) : Prop :=
  ∀ p, (places s.gScheduler).count p ≤ 1 ∧
    (p ∈ calls.filterMap SchedulerCall.handed → p ∈ places s.gScheduler)

structure Configured (s : SchedulerState) : Prop where
  initialized : s.gSchedulerInitialized = true
  enabled : s.gScheduler.schedulingEnabled = true
  preemption : s.gScheduler.preemptionEnabled = true
  roundRobin : s.gScheduler.algorithm = .roundRobin
  noIdle : s.gScheduler.idleProcess = none

structure Placed (handed : List Nat) (s : SchedulerState) : Prop where
  configured : Configured s
  nodup : (places s.gScheduler).Nodup
  mem_iff : ∀ p, p ∈ places s.gScheduler ↔ p ∈ handed
  current_running : ∀ p, s.gScheduler.currentProcess = some p → (s.processes p).state = .running

variable {s s' : SchedulerState} {handed : List Nat} {p q : Nat} {rest : List Nat}

theorem placed_started (processes : Nat → Process) (privilege : PrivilegeContext) :
    Placed [] (started processes privilege) := by
  refine ⟨⟨rfl, rfl, rfl, rfl, rfl⟩, List.nodup_nil, fun p => Iff.rfl, fun p hp => ?_⟩
  exact absurd hp (by simp [started, schedulerStart, schedulerInit, coldBoot, withScheduler])

theorem Placed.of_perm (h : Placed handed s) (hc : Configured s')
    (hperm : (places s'.gScheduler).Perm (places s.gScheduler))
    (hrun : ∀ p, s'.gScheduler.currentProcess = some p → (s'.processes p).state = .running) :
    Placed handed s' :=
  ⟨hc, hperm.nodup_iff.mpr h.nodup, fun p => hperm.mem_iff.trans (h.mem_iff p), hrun⟩

section Schedule

structure Switched (s s' : SchedulerState) (q : Nat) (rest : List Nat) : Prop where
  configured : Configured s'
  current : s'.gScheduler.currentProcess = some q
  ready : s'.gScheduler.readyQueue = rest ++
    (s.gScheduler.currentProcess.filter fun p => (s.processes p).state = .running).toList
  blocked : s'.gScheduler.blockedQueue = s.gScheduler.blockedQueue
  running : (s'.processes q).state = .running

theorem requeueOld_ready (s : SchedulerState) (old : Option Nat) :
    (requeueOld s old).gScheduler = { s.gScheduler with
      readyQueue := s.gScheduler.readyQueue ++
        (old.filter fun p => (s.processes p).state = .running).toList } := by
  cases old with
  | none => simp [requeueOld]
  | some p =>
    by_cases hr : (s.processes p).state = .running <;>
      simp [requeueOld, hr, schedulerEnqueueReady, withScheduler, setProcessState, queueEnqueue,
        Option.filter]

theorem requeueOld_initialized (s : SchedulerState) (old : Option Nat) :
    (requeueOld s old).gSchedulerInitialized = s.gSchedulerInitialized := by
  cases old with
  | none => rfl
  | some p =>
    by_cases hr : (s.processes p).state = .running <;>
      simp [requeueOld, hr, schedulerEnqueueReady, withScheduler, setProcessState]

theorem switchTo_scheduler (s : SchedulerState) (old : Option Nat) (q : Nat) :
    (switchTo s old (some q)).gScheduler = { s.gScheduler with
      currentProcess := some q
      totalContextSwitches := s.gScheduler.totalContextSwitches + 1
      currentQuantumRemaining := s.gScheduler.quantumMs } := by
  unfold switchTo schedulerContextSwitch
  dsimp only
  split <;> rfl

theorem switchTo_initialized (s : SchedulerState) (old : Option Nat) (q : Nat) :
    (switchTo s old (some q)).gSchedulerInitialized = s.gSchedulerInitialized := by
  unfold switchTo schedulerContextSwitch
  dsimp only
  split <;> rfl

theorem switchTo_running (s : SchedulerState) (old : Option Nat) (q : Nat) :
    ((switchTo s old (some q)).processes q).state = .running := by
  unfold switchTo schedulerContextSwitch
  dsimp only
  split <;> simp [withScheduler, setProcessState]

theorem schedule_of_ready (hc : Configured s) (hq : s.gScheduler.readyQueue = q :: rest)
    (hne : s.gScheduler.currentProcess ≠ some q) :
    Switched s (schedulerSchedule s) q rest := by
  have hgo : (!s.gSchedulerInitialized || !s.gScheduler.schedulingEnabled) = false := by
    simp [hc.initialized, hc.enabled]
  have hpick : schedulerPickNextProcess s.gScheduler =
      (some q, { s.gScheduler with readyQueue := rest }) := by
    simp [schedulerPickNextProcess, hc.roundRobin, schedulerDequeueReady, hq, queueDequeue]
  have heq : schedulerSchedule s = switchTo (requeueOld
      { s with
        gPrivilegeContext := privilegeEnterKernelMode s.gPrivilegeContext
        gScheduler := { s.gScheduler with readyQueue := rest } }
      s.gScheduler.currentProcess) s.gScheduler.currentProcess (some q) := by
    simp [schedulerSchedule, hgo, hpick, hne.symm]
  rw [heq]
  refine ⟨⟨?_, ?_, ?_, ?_, ?_⟩, ?_, ?_, ?_, switchTo_running _ _ _⟩
  · rw [switchTo_initialized, requeueOld_initialized]
    exact hc.initialized
  all_goals simp only [switchTo_scheduler, requeueOld_ready]
  · exact hc.enabled
  · exact hc.preemption
  · exact hc.roundRobin
  · exact hc.noIdle

theorem pick_of_empty {g : Scheduler} (hr : g.algorithm = .roundRobin) (hq : g.readyQueue = []) :
    schedulerPickNextProcess g = (none, g) := by
  cases g
  simp_all [schedulerPickNextProcess, schedulerDequeueReady, queueDequeue]

theorem schedule_of_idle (hc : Configured s) (hq : s.gScheduler.readyQueue = [])
    (hcur : s.gScheduler.currentProcess = none) :
    schedulerSchedule s =
      { s with gPrivilegeContext := privilegeEnterKernelMode s.gPrivilegeContext } := by
  have hgo : (!s.gSchedulerInitialized || !s.gScheduler.schedulingEnabled) = false := by
    simp [hc.initialized, hc.enabled]
  simp [schedulerSchedule, hgo, pick_of_empty hc.roundRobin hq, hc.noIdle, hcur]

theorem Placed.schedule (h : Placed handed s) (hs : switchable s.gScheduler = true) :
    Placed handed (schedulerSchedule s) := by
  rcases hq : s.gScheduler.readyQueue with _ | ⟨q, rest⟩
  · have hcur : s.gScheduler.currentProcess = none := by simpa [switchable, hq] using hs
    rw [schedule_of_idle h.configured hq hcur]
    exact ⟨⟨h.configured.initialized, h.configured.enabled, h.configured.preemption,
      h.configured.roundRobin, h.configured.noIdle⟩, h.nodup, h.mem_iff, h.current_running⟩
  · have hne : s.gScheduler.currentProcess ≠ some q := by
      intro hcur
      have hnd := h.nodup
      simp [places, hcur, hq] at hnd
    have hsw := schedule_of_ready h.configured hq hne
    refine h.of_perm hsw.configured ?_ ?_
    · cases hcur : s.gScheduler.currentProcess with
      | none => simp [places, hsw.current, hsw.ready, hsw.blocked, hcur, hq]
      | some c =>
        have hrun := h.current_running c hcur
        simp only [places, hsw.current, hsw.ready, hsw.blocked, hcur, hq, Option.toList_some,
          Option.filter_some, hrun, decide_true, if_true, List.cons_append, List.nil_append]
        rw [List.append_assoc]
        have hmid : (rest ++ c :: s.gScheduler.blockedQueue).Perm
            (c :: (rest ++ s.gScheduler.blockedQueue)) := List.perm_middle
        exact (hmid.cons q).trans (List.Perm.swap c q _)
    · intro p hp
      rw [hsw.current] at hp
      exact Option.some.inj hp ▸ hsw.running

end Schedule

theorem Placed.withScheduler (h : Placed handed s) {f : Scheduler → Scheduler}
    (hc : Configured (withScheduler s f)) (hpl : places (f s.gScheduler) = places s.gScheduler)
    (hcur : (f s.gScheduler).currentProcess = s.gScheduler.currentProcess) :
    Placed handed (withScheduler s f) :=
  h.of_perm hc (by rw [Kernel.withScheduler, hpl]) fun p hp =>
    h.current_running p (hcur ▸ hp)

theorem Placed.yield (h : Placed handed s) (hs : switchable s.gScheduler = true) :
    Placed handed (schedulerYield s) := by
  have hc := h.configured
  have hcount : Placed handed (Kernel.withScheduler s fun g =>
      { g with totalYields := g.totalYields + 1 }) :=
    h.withScheduler ⟨hc.initialized, hc.enabled, hc.preemption, hc.roundRobin, hc.noIdle⟩ rfl rfl
  simpa [schedulerYield, hc.initialized] using hcount.schedule hs

theorem Placed.preempt (h : Placed handed s) (hs : switchable s.gScheduler = true) :
    Placed handed (schedulerPreempt s) := by
  have hc := h.configured
  have hcount : Placed handed (Kernel.withScheduler s fun g =>
      { g with totalPreemptions := g.totalPreemptions + 1 }) :=
    h.withScheduler ⟨hc.initialized, hc.enabled, hc.preemption, hc.roundRobin, hc.noIdle⟩ rfl rfl
  simpa [schedulerPreempt, hc.initialized, hc.preemption] using hcount.schedule hs

theorem Placed.tick (h : Placed handed s)
    (hs : 1 < s.gScheduler.currentQuantumRemaining ∨ switchable s.gScheduler = true) :
    Placed handed (schedulerTick s) := by
  have hc := h.configured
  have hcount : Placed handed (Kernel.withScheduler s fun g =>
      { g with currentQuantumRemaining := g.currentQuantumRemaining - 1 }) :=
    h.withScheduler ⟨hc.initialized, hc.enabled, hc.preemption, hc.roundRobin, hc.noIdle⟩ rfl rfl
  have hgo : (!s.gSchedulerInitialized || !s.gScheduler.schedulingEnabled) = false := by
    simp [hc.initialized, hc.enabled]
  rw [schedulerTick, hgo]
  dsimp only
  rw [if_neg Bool.false_ne_true]
  split
  · next hexp =>
    refine hcount.preempt (hs.resolve_left fun hlt => ?_)
    have hzero : s.gScheduler.currentQuantumRemaining - 1 = 0 := hexp.1
    omega
  · exact hcount

theorem Placed.enqueueReady (h : Placed handed s) (hp : p ∉ places s.gScheduler) :
    Placed (handed ++ [p]) (schedulerEnqueueReady s (some p)) := by
  have hc := h.configured
  have hperm : (places (schedulerEnqueueReady s (some p)).gScheduler).Perm
      (p :: places s.gScheduler) := by
    have hmid : (s.gScheduler.currentProcess.toList ++ s.gScheduler.readyQueue ++
        p :: s.gScheduler.blockedQueue).Perm (p :: (s.gScheduler.currentProcess.toList ++
        s.gScheduler.readyQueue ++ s.gScheduler.blockedQueue)) := List.perm_middle
    simpa [schedulerEnqueueReady, Kernel.withScheduler, setProcessState, queueEnqueue, places]
      using hmid
  refine ⟨⟨hc.initialized, hc.enabled, hc.preemption, hc.roundRobin, hc.noIdle⟩,
    hperm.nodup_iff.mpr (List.nodup_cons.mpr ⟨hp, h.nodup⟩), fun q => ?_, fun q hq => ?_⟩
  · rw [hperm.mem_iff, List.mem_cons, h.mem_iff q, List.mem_append, List.mem_singleton, or_comm]
  · have hqp : q ≠ p := by
      rintro rfl
      have hcur : s.gScheduler.currentProcess = some q := hq
      exact hp (by simp [places, hcur])
    have hrun := h.current_running q hq
    simpa [schedulerEnqueueReady, Kernel.withScheduler, setProcessState, hqp] using hrun

theorem erase_places_perm (hin : p ∈ s.gScheduler.blockedQueue) :
    (s.gScheduler.currentProcess.toList ++ (s.gScheduler.readyQueue ++ [p]) ++
      s.gScheduler.blockedQueue.erase p).Perm (places s.gScheduler) := by
  have hb := (List.perm_cons_erase hin).symm
  have := hb.append_left (s.gScheduler.currentProcess.toList ++ s.gScheduler.readyQueue)
  simpa [places] using this

theorem Placed.unblock (h : Placed handed s) (hin : p ∈ s.gScheduler.blockedQueue) :
    Placed handed (schedulerUnblockProcess s (some p)) := by
  have hc := h.configured
  refine h.of_perm ⟨hc.initialized, hc.enabled, hc.preemption, hc.roundRobin, hc.noIdle⟩ ?_ ?_
  · simpa [schedulerUnblockProcess, schedulerEnqueueReady, Kernel.withScheduler, setProcessState,
      queueEnqueue, queueRemove, places] using erase_places_perm hin
  · intro q hq
    have hqp : q ≠ p := by
      rintro rfl
      have hcur : s.gScheduler.currentProcess = some q := hq
      have hnd := h.nodup
      simp [places, hcur, hin] at hnd
    have hrun := h.current_running q hq
    simpa [schedulerUnblockProcess, schedulerEnqueueReady, Kernel.withScheduler, setProcessState,
      hqp] using hrun

theorem erase_append_erase {l m : List Nat} (h : (l ++ m).Nodup) (p : Nat) :
    l.erase p ++ m.erase p = (l ++ m).erase p := by
  rw [List.erase_append]
  split
  · next hl =>
    rw [List.erase_of_not_mem (List.disjoint_of_nodup_append h hl)]
  · next hl =>
    rw [List.erase_of_not_mem hl]

def parked (s : SchedulerState) (p : Nat) : SchedulerState :=
  schedulerEnqueueBlocked (schedulerRemoveFromQueue s (some p)) (some p)

theorem parked_configured (hc : Configured s) (p : Nat) : Configured (parked s p) :=
  ⟨hc.initialized, hc.enabled, hc.preemption, hc.roundRobin, hc.noIdle⟩

theorem block_eq (s : SchedulerState) (p : Nat) :
    schedulerBlockProcess s (some p) =
      if some p = s.gScheduler.currentProcess then schedulerSchedule (parked s p)
      else parked s p := rfl

theorem Placed.mem_handed_concat (h : Placed handed s)
    (hperm : (places s'.gScheduler).Perm (p :: (places s.gScheduler).erase p)) (x : Nat) :
    x ∈ places s'.gScheduler ↔ x ∈ handed ++ [p] := by
  rw [hperm.mem_iff, List.mem_cons, h.nodup.mem_erase_iff, h.mem_iff x, List.mem_append,
    List.mem_singleton]
  tauto

theorem Placed.of_erase_perm (h : Placed handed s) (hc : Configured s')
    (hperm : (places s'.gScheduler).Perm (p :: (places s.gScheduler).erase p))
    (hrun : ∀ q, s'.gScheduler.currentProcess = some q → (s'.processes q).state = .running) :
    Placed (handed ++ [p]) s' :=
  ⟨hc, hperm.nodup_iff.mpr (List.nodup_cons.mpr
    ⟨fun hin => (h.nodup.mem_erase_iff.mp hin).1 rfl, h.nodup.erase p⟩),
    h.mem_handed_concat hperm, hrun⟩

theorem Placed.block_other (h : Placed handed s) (hcur : s.gScheduler.currentProcess ≠ some p) :
    Placed (handed ++ [p]) (parked s p) := by
  refine h.of_erase_perm (parked_configured h.configured p) ?_ ?_
  · have hnd : (s.gScheduler.readyQueue ++ s.gScheduler.blockedQueue).Nodup := by
      have hnd := h.nodup
      rw [places, List.append_assoc] at hnd
      exact hnd.of_append_right
    have hcur' : p ∉ s.gScheduler.currentProcess.toList := by simpa using hcur
    have herase : (places s.gScheduler).erase p = s.gScheduler.currentProcess.toList ++
        (s.gScheduler.readyQueue.erase p ++ s.gScheduler.blockedQueue.erase p) := by
      rw [places, List.append_assoc, List.erase_append_right _ hcur', erase_append_erase hnd]
    rw [herase]
    have hmid := List.perm_append_singleton p (s.gScheduler.currentProcess.toList ++
      (s.gScheduler.readyQueue.erase p ++ s.gScheduler.blockedQueue.erase p))
    simpa [parked, schedulerEnqueueBlocked, schedulerRemoveFromQueue, Kernel.withScheduler,
      setProcessState, queueEnqueue, queueRemove, places] using hmid
  · intro q hq
    have hqp : q ≠ p := by
      rintro rfl
      exact hcur hq
    have hrun := h.current_running q hq
    simpa [parked, schedulerEnqueueBlocked, schedulerRemoveFromQueue, Kernel.withScheduler,
      setProcessState, hqp] using hrun

theorem Placed.block_current (h : Placed handed s) (hcur : s.gScheduler.currentProcess = some p)
    (hready : queueRemove s.gScheduler.readyQueue p ≠ []) :
    Placed (handed ++ [p]) (schedulerSchedule (parked s p)) := by
  have hnd := h.nodup
  rw [places, hcur] at hnd
  obtain ⟨hnot, hnd⟩ : (p ∉ s.gScheduler.readyQueue ++ s.gScheduler.blockedQueue) ∧
      (s.gScheduler.readyQueue ++ s.gScheduler.blockedQueue).Nodup := by
    simpa [List.nodup_cons] using hnd
  obtain ⟨hnr, hnb⟩ : p ∉ s.gScheduler.readyQueue ∧ p ∉ s.gScheduler.blockedQueue := by
    simpa using hnot
  rw [queueRemove, List.erase_of_not_mem hnr] at hready
  obtain ⟨q, rest, hq⟩ := List.exists_cons_of_ne_nil hready
  have hq' : (parked s p).gScheduler.readyQueue = q :: rest := by
    rw [← hq]
    exact List.erase_of_not_mem hnr
  have hne : (parked s p).gScheduler.currentProcess ≠ some q := by
    intro hpq
    have : some p = some q := hcur.symm.trans hpq
    exact hnr (by simp [hq, Option.some.inj this])
  have hsw := schedule_of_ready (parked_configured h.configured p) hq' hne
  have hasleep : ((parked s p).processes p).state = .sleeping := by
    simp [parked, schedulerEnqueueBlocked, Kernel.withScheduler, setProcessState]
  have hcur' : (parked s p).gScheduler.currentProcess = some p := hcur
  have hblocked : (parked s p).gScheduler.blockedQueue = s.gScheduler.blockedQueue ++ [p] := by
    show queueRemove s.gScheduler.blockedQueue p ++ [p] = _
    rw [queueRemove, List.erase_of_not_mem hnb]
  refine h.of_erase_perm hsw.configured ?_ fun x hx => ?_
  · have hleft : places (schedulerSchedule (parked s p)).gScheduler =
        (q :: rest ++ s.gScheduler.blockedQueue) ++ [p] := by
      simp [places, hsw.current, hsw.ready, hsw.blocked, hcur', hasleep, hblocked]
    have hright : (places s.gScheduler).erase p = q :: rest ++ s.gScheduler.blockedQueue := by
      simp [places, hcur, hq]
    rw [hleft, hright]
    exact List.perm_append_singleton p _
  · rw [hsw.current] at hx
    exact Option.some.inj hx ▸ hsw.running

theorem Placed.step (h : Placed handed s) (c : SchedulerCall) (hp : permitted s c = true)
    (hk : keepsPlaces s c = true) :
    Placed (handed ++ c.handed.toList) (schedulerCall s c) := by
  cases c with
  | enqueueReady p =>
    cases p with
    | none => simpa [schedulerCall, SchedulerCall.handed, schedulerEnqueueReady, schedulerBlockProcess,
        schedulerUnblockProcess] using h
    | some p => exact h.enqueueReady (by simpa [permitted] using hp)
  | schedule => simpa [schedulerCall, SchedulerCall.handed] using h.schedule hk
  | yield => simpa [schedulerCall, SchedulerCall.handed] using h.yield hk
  | preempt => simpa [schedulerCall, SchedulerCall.handed] using h.preempt hk
  | tick => simpa [schedulerCall, SchedulerCall.handed] using h.tick (by simpa [keepsPlaces] using hk)
  | blockProcess p =>
    cases p with
    | none => simpa [schedulerCall, SchedulerCall.handed, schedulerEnqueueReady, schedulerBlockProcess,
        schedulerUnblockProcess] using h
    | some p =>
      simp only [schedulerCall, block_eq, SchedulerCall.handed, Option.toList_some]
      split
      · next hcur => exact h.block_current hcur.symm (of_decide_eq_true hk hcur.symm)
      · next hcur => exact h.block_other (Ne.symm hcur)
  | unblockProcess p =>
    cases p with
    | none => simpa [schedulerCall, SchedulerCall.handed, schedulerEnqueueReady, schedulerBlockProcess,
        schedulerUnblockProcess] using h
    | some p =>
      simpa [schedulerCall, SchedulerCall.handed] using h.unblock (by simpa [permitted] using hp)

theorem one_place_per_process (processes : Nat → Process) (privilege : PrivilegeContext)
    {calls : List SchedulerCall} {s : SchedulerState}
    (h : SchedulerRun (fun s c => permitted s c = true ∧ keepsPlaces s c = true)
      processes privilege calls s) : OnePlace calls s := by
  have hplaced : Placed (calls.filterMap SchedulerCall.handed) s := by
    refine Run.history (P := fun calls s => Placed (calls.filterMap SchedulerCall.handed) s)
      (placed_started processes privilege) ?_ h
    intro calls s c s' hpl hok hstep
    obtain rfl := Option.some.inj hstep
    have := hpl.step c hok.1 hok.2
    cases hh : c.handed <;> simpa [hh] using this
  exact fun p => ⟨List.nodup_iff_count_le_one.mp hplaced.nodup p, (hplaced.mem_iff p).mpr⟩

def numbered : Nat → Process := fun p => ⟨p, .sleeping, .normal⟩

def wakeTwice : List SchedulerCall :=
  [.enqueueReady (some 1), .enqueueReady (some 2), .schedule, .yield, .blockProcess (some 2),
    .unblockProcess (some 2)]

theorem one_place_per_process_two :
    OnePlace wakeTwice (wakeTwice.foldl schedulerCall
      (started numbered (privilegeInit 0x1000 0x2000))) := by
  have hrun : SchedulerRun (fun s c => (permitted s c && keepsPlaces s c) = true) numbered
      (privilegeInit 0x1000 0x2000) wakeTwice (wakeTwice.foldl schedulerCall
        (started numbered (privilegeInit 0x1000 0x2000))) := Run.of_exec rfl
  exact one_place_per_process _ _ (hrun.mono fun s c h => by simpa using h)

theorem lone_yield_two_places :
    ¬ ∀ (processes : Nat → Process) (privilege : PrivilegeContext) (calls : List SchedulerCall)
      (s : SchedulerState),
      SchedulerRun (fun s c => permitted s c = true) processes privilege calls s →
      OnePlace calls s := by
  intro hall
  have hrun : SchedulerRun (fun s c => permitted s c = true) numbered
      (privilegeInit 0x1000 0x2000) [.enqueueReady (some 1), .schedule, .yield]
      ([.enqueueReady (some 1), .schedule, .yield].foldl schedulerCall
        (started numbered (privilegeInit 0x1000 0x2000))) := Run.of_exec rfl
  have hcount := (hall _ _ _ _ hrun 1).1
  exact absurd hcount (by decide)

end ZoraVM.Kernel
