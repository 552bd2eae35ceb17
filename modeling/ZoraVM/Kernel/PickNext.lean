import ZoraVM.Kernel.SchedulerPlaces

namespace ZoraVM.Kernel

open Foundation

inductive SchedulerEvent where
  | call (c : SchedulerCall)
  | enqueueBlocked (process : Option Nat)
  | removeFromQueue (process : Option Nat)
  | dequeueReady
  | pickNextProcess
  | start
  | stop
  | setAlgorithm (algo : SchedulerAlgorithm)
  | setQuantum (ms : Nat)
  | processSetPriority (process : Nat) (priority : ProcessPriority)
  deriving DecidableEq, Repr

def schedulerEvent (s : SchedulerState) : SchedulerEvent → SchedulerState
  | .call c => schedulerCall s c
  | .enqueueBlocked p => schedulerEnqueueBlocked s p
  | .removeFromQueue p => schedulerRemoveFromQueue s p
  | .dequeueReady => withScheduler s fun g => (schedulerDequeueReady g).2
  | .pickNextProcess => withScheduler s fun g => (schedulerPickNextProcess g).2
  | .start => schedulerStart s
  | .stop => schedulerStop s
  | .setAlgorithm algo => schedulerSetAlgorithm s algo
  | .setQuantum ms => schedulerSetQuantum s ms
  | .processSetPriority p priority =>
    { s with processes := Function.update s.processes p { s.processes p with priority := priority } }

def SchedulerReachable (s : SchedulerState) : Prop :=
  ∃ processes privilege events, Run (fun s e => some (schedulerEvent s e)) (fun _ _ => True)
    (schedulerInit (coldBoot processes privilege)) events s

def readySet (g : Scheduler) : List Nat := g.readyQueue ++ g.priorityQueues.flatten

def PicksMostUrgent (s : SchedulerState) : Prop :=
  ∃ p g, schedulerPickNextProcess s.gScheduler = (some p, g) ∧ p ∈ readySet s.gScheduler ∧
    p ∉ readySet g ∧ (s.gScheduler.algorithm = .priority →
      ∀ q ∈ readySet g, (s.processes p).priority.value ≤ (s.processes q).priority.value)

-- A process may stand in the ready queue more than once: nothing stops a second enqueue.
def queuedOnce (q : List Nat) : Bool :=
  match q with
  | [] => true
  | p :: rest => decide (p ∉ rest)

-- Nobody ever enqueues to the priority queues.
def QueuesEmpty (g : Scheduler) : Prop := g.priorityQueues = List.replicate schedulerMaxQueues []

variable {s s' : SchedulerState} {g : Scheduler} {p : Nat}

section Empty

theorem dequeuePriority_empty (n k : Nat) :
    dequeuePriority (List.replicate n []) k = (none, List.replicate n []) := by
  induction k with
  | zero => rfl
  | succ k ih =>
    rw [dequeuePriority, List.getElem?_replicate]
    by_cases hk : k < n
    · simp [hk, ih]
    · simp [hk, ih]

theorem pick_priority (h : QueuesEmpty g) (halg : g.algorithm = .priority) :
    schedulerPickNextProcess g = (none, g) := by
  have hnone := dequeuePriority_empty schedulerMaxQueues schedulerMaxQueues
  cases g
  simp_all [schedulerPickNextProcess, QueuesEmpty]

theorem pick_fifo (halg : g.algorithm ≠ .priority) :
    schedulerPickNextProcess g = schedulerDequeueReady g := by
  unfold schedulerPickNextProcess
  split
  · next h => exact absurd h halg
  · rfl

theorem queuesEmpty_pick (h : QueuesEmpty g) : QueuesEmpty (schedulerPickNextProcess g).2 := by
  by_cases halg : g.algorithm = .priority
  · rw [pick_priority h halg]
    exact h
  · rw [pick_fifo halg]
    exact h

theorem priorityQueues_enqueueReady (s : SchedulerState) (p : Option Nat) :
    (schedulerEnqueueReady s p).gScheduler.priorityQueues = s.gScheduler.priorityQueues := by
  cases p <;> rfl

theorem priorityQueues_enqueueBlocked (s : SchedulerState) (p : Option Nat) :
    (schedulerEnqueueBlocked s p).gScheduler.priorityQueues = s.gScheduler.priorityQueues := by
  cases p <;> rfl

theorem priorityQueues_remove (s : SchedulerState) (p : Option Nat) :
    (schedulerRemoveFromQueue s p).gScheduler.priorityQueues = s.gScheduler.priorityQueues := by
  cases p <;> rfl

theorem priorityQueues_requeueOld (s : SchedulerState) (p : Option Nat) :
    (requeueOld s p).gScheduler.priorityQueues = s.gScheduler.priorityQueues := by
  rw [requeueOld_ready]

theorem contextSwitch_scheduler (s : SchedulerState) (old new : Option Nat) :
    (schedulerContextSwitch s old new).gScheduler = s.gScheduler := by
  cases new with
  | none => rfl
  | some p =>
    unfold schedulerContextSwitch
    dsimp only
    split <;> rfl

theorem priorityQueues_switchTo (s : SchedulerState) (old new : Option Nat) :
    (switchTo s old new).gScheduler.priorityQueues = s.gScheduler.priorityQueues := by
  cases new with
  | none => rfl
  | some p =>
    simp only [switchTo, withScheduler]
    rw [contextSwitch_scheduler]
    rfl

theorem queuesEmpty_schedule (h : QueuesEmpty s.gScheduler) :
    QueuesEmpty (schedulerSchedule s).gScheduler := by
  unfold schedulerSchedule
  split
  · exact h
  · dsimp only
    split
    · exact queuesEmpty_pick h
    · rw [QueuesEmpty, priorityQueues_switchTo, priorityQueues_requeueOld]
      exact queuesEmpty_pick h

theorem queuesEmpty_preempt (h : QueuesEmpty s.gScheduler) :
    QueuesEmpty (schedulerPreempt s).gScheduler := by
  unfold schedulerPreempt
  split
  · exact h
  · exact queuesEmpty_schedule h

theorem queuesEmpty_call (h : QueuesEmpty s.gScheduler) (c : SchedulerCall) :
    QueuesEmpty (schedulerCall s c).gScheduler := by
  cases c with
  | enqueueReady p => exact (priorityQueues_enqueueReady s p).trans h
  | schedule => exact queuesEmpty_schedule h
  | yield =>
    simp only [schedulerCall, schedulerYield]
    split
    · exact h
    · exact queuesEmpty_schedule h
  | preempt => exact queuesEmpty_preempt h
  | tick =>
    simp only [schedulerCall, schedulerTick]
    split
    · exact h
    · split
      · exact queuesEmpty_preempt h
      · exact h
  | blockProcess p =>
    cases p with
    | none => exact h
    | some p =>
      have hblocked : QueuesEmpty
          (schedulerEnqueueBlocked (schedulerRemoveFromQueue s (some p)) (some p)).gScheduler := by
        rw [QueuesEmpty, priorityQueues_enqueueBlocked, priorityQueues_remove]
        exact h
      simp only [schedulerCall, schedulerBlockProcess]
      split
      · exact queuesEmpty_schedule hblocked
      · exact hblocked
  | unblockProcess p =>
    cases p with
    | none => exact h
    | some p => exact h

theorem queuesEmpty_event (h : QueuesEmpty s.gScheduler) (e : SchedulerEvent) :
    QueuesEmpty (schedulerEvent s e).gScheduler := by
  cases e with
  | call c => exact queuesEmpty_call h c
  | enqueueBlocked p => exact (priorityQueues_enqueueBlocked s p).trans h
  | removeFromQueue p => exact (priorityQueues_remove s p).trans h
  | dequeueReady => exact h
  | pickNextProcess => exact queuesEmpty_pick h
  | start => exact h
  | stop => exact h
  | setAlgorithm algo => exact h
  | setQuantum ms => exact h
  | processSetPriority p priority => exact h

theorem SchedulerReachable.queuesEmpty (h : SchedulerReachable s) : QueuesEmpty s.gScheduler := by
  obtain ⟨processes, privilege, events, hrun⟩ := h
  have hstart : QueuesEmpty (schedulerInit (coldBoot processes privilege)).gScheduler := rfl
  induction hrun with
  | start => exact hstart
  | call _ _ hstep hs =>
    obtain rfl := Option.some.inj hstep
    exact queuesEmpty_event hs _

end Empty

section Law

theorem readySet_eq (h : QueuesEmpty g) : readySet g = g.readyQueue := by
  rw [readySet, h]
  simp

theorem picks_most_urgent_iff (hreach : SchedulerReachable s)
    (hready : s.gScheduler.readyQueue ≠ []) :
    PicksMostUrgent s ↔
      s.gScheduler.algorithm ≠ .priority ∧ queuedOnce s.gScheduler.readyQueue = true := by
  have hempty := hreach.queuesEmpty
  obtain ⟨p, rest, hq⟩ := List.exists_cons_of_ne_nil hready
  by_cases halg : s.gScheduler.algorithm = .priority
  · have hnone : ¬ PicksMostUrgent s := by
      rintro ⟨q, g, hpick, _⟩
      rw [pick_priority hempty halg] at hpick
      cases hpick
    simp [halg, hnone]
  · have hpick : schedulerPickNextProcess s.gScheduler =
        (some p, { s.gScheduler with readyQueue := rest }) := by
      rw [pick_fifo halg, schedulerDequeueReady, hq]
      rfl
    have hleft : readySet { s.gScheduler with readyQueue := rest } = rest := readySet_eq hempty
    have hmem : p ∈ readySet s.gScheduler := by
      rw [readySet_eq hempty, hq]
      exact List.mem_cons_self
    constructor
    · rintro ⟨q, g, hsome, _, hgone, _⟩
      obtain ⟨hp, rfl⟩ := Prod.mk.inj (hpick.symm.trans hsome)
      obtain rfl := Option.some.inj hp
      rw [hleft] at hgone
      rw [hq]
      exact ⟨halg, decide_eq_true hgone⟩
    · rintro ⟨_, honce⟩
      rw [hq] at honce
      refine ⟨p, _, hpick, hmem, ?_, fun h => absurd h halg⟩
      rw [hleft]
      exact of_decide_eq_true honce

def ranEvents (events : List SchedulerEvent) : SchedulerState :=
  events.foldl schedulerEvent (schedulerInit (coldBoot numbered (privilegeInit 0x1000 0x2000)))

theorem schedulerReachable_ran (events : List SchedulerEvent) :
    SchedulerReachable (ranEvents events) := by
  refine ⟨numbered, privilegeInit 0x1000 0x2000, events, ?_⟩
  induction events using List.reverseRecOn with
  | nil => exact .start
  | append_singleton events e ih =>
    rw [ranEvents, List.foldl_append]
    exact .call ih trivial rfl

theorem picks_most_urgent_iff_multilevel :
    PicksMostUrgent (ranEvents [.setAlgorithm .multilevel, .call (.enqueueReady (some 4)),
        .processSetPriority 7 .realtime, .call (.enqueueReady (some 7))]) ↔
      SchedulerAlgorithm.multilevel ≠ .priority ∧ queuedOnce [4, 7] = true :=
  picks_most_urgent_iff (schedulerReachable_ran _) (by decide)

theorem priority_picks_nobody :
    ¬ ∀ s, SchedulerReachable s → s.gScheduler.readyQueue ≠ [] → PicksMostUrgent s := by
  intro hall
  obtain ⟨p, g, hpick, _⟩ := hall (ranEvents [.setAlgorithm .priority,
    .call (.enqueueReady (some 4)), .call (.enqueueReady (some 7))]) (schedulerReachable_ran _)
    (by decide)
  have hnone : (schedulerPickNextProcess (ranEvents [.setAlgorithm .priority,
    .call (.enqueueReady (some 4)), .call (.enqueueReady (some 7))]).gScheduler).1 = none := by decide
  rw [hpick] at hnone
  cases hnone

end Law

end ZoraVM.Kernel
