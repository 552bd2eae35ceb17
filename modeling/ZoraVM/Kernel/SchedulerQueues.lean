import ZoraVM.Kernel.PickNext
import ZoraVM.Kernel.ProcessQueue

namespace ZoraVM.Kernel.Queues

open Foundation

section Source

inductive QueueName where
  | ready
  | blocked
  | priority (level : Fin schedulerMaxQueues)
  deriving DecidableEq

-- g_scheduler with its queues of nodes, and the globals beside it.
structure SchedulerMemory where
  nodes : Heap ProcessQueueNode
  queues : QueueName → ProcessQueue
  algorithm : SchedulerAlgorithm
  currentProcess : Option Nat
  idleProcess : Option Nat
  totalContextSwitches : Nat
  totalPreemptions : Nat
  totalYields : Nat
  quantumMs : Nat
  lastScheduleTime : Nat
  currentQuantumRemaining : Nat
  preemptionEnabled : Bool
  schedulingEnabled : Bool
  gSchedulerInitialized : Bool
  processes : Nat → Process
  gPrivilegeContext : PrivilegeContext

namespace SchedulerMemory

variable (m : SchedulerMemory)

def queueState (name : QueueName) : QueueState := ⟨m.nodes, m.queues name⟩

def withQueue (name : QueueName) (q : QueueState) : SchedulerMemory :=
  { m with nodes := q.nodes, queues := Function.update m.queues name q.queue }

def setProcessState (p : Nat) (st : ProcessState) : SchedulerMemory :=
  { m with processes := Function.update m.processes p { m.processes p with state := st } }

-- malloc has a node, as it has the priority queues of scheduler_init.
def enqueue (name : QueueName) (p : Nat) : Checked SchedulerMemory :=
  m.withQueue name <$> queueEnqueue (m.queueState name) p true

def dequeue (name : QueueName) : Checked (Option Nat × SchedulerMemory) :=
  (fun r => (r.1, m.withQueue name r.2)) <$> queueDequeue (m.queueState name)

def remove (fuel : Nat) (name : QueueName) (p : Nat) : OptionT Checked SchedulerMemory :=
  OptionT.mk (Option.map (m.withQueue name) <$> queueRemove fuel (m.queueState name) p)

def schedulerEnqueueReady : Option Nat → Checked SchedulerMemory
  | none => .ok m
  | some p => (m.setProcessState p .running).enqueue .ready p

def schedulerEnqueueBlocked : Option Nat → Checked SchedulerMemory
  | none => .ok m
  | some p => (m.setProcessState p .sleeping).enqueue .blocked p

def schedulerRemoveFromQueue (fuel : Nat) : Option Nat → OptionT Checked SchedulerMemory
  | none => pure m
  | some p => do
    let m ← m.remove fuel .ready p
    m.remove fuel .blocked p

-- The loop of SCHED_PRIORITY, from the last queue down.
def dequeuePriority : (level : Nat) → level ≤ schedulerMaxQueues →
    Checked (Option Nat × SchedulerMemory)
  | 0, _ => .ok (none, m)
  | level + 1, h =>
    if 0 < (m.queues (.priority ⟨level, h⟩)).count then m.dequeue (.priority ⟨level, h⟩)
    else dequeuePriority level (Nat.le_of_succ_le h)

def schedulerPickNextProcess : Checked (Option Nat × SchedulerMemory) :=
  match m.algorithm with
  | .priority => m.dequeuePriority schedulerMaxQueues (Nat.le_refl _)
  | _ => m.dequeue .ready

def schedulerContextSwitch (newProc : Nat) : SchedulerMemory :=
  if (m.processes newProc).pid > 0 then
    { m with gPrivilegeContext := privilegeEnterUserMode m.gPrivilegeContext }
  else m

def requeueOld : Option Nat → Checked SchedulerMemory
  | none => .ok m
  | some p =>
    if (m.processes p).state = .running then
      (m.setProcessState p .running).schedulerEnqueueReady (some p)
    else .ok m

def switchTo : Option Nat → SchedulerMemory
  | none => m
  | some p =>
    let m := { m.setProcessState p .running with currentProcess := some p }
    let m := m.schedulerContextSwitch p
    { m with
      totalContextSwitches := m.totalContextSwitches + 1
      currentQuantumRemaining := m.quantumMs }

def schedulerSchedule : Checked SchedulerMemory :=
  if !m.gSchedulerInitialized || !m.schedulingEnabled then .ok m
  else do
    let m := { m with gPrivilegeContext := privilegeEnterKernelMode m.gPrivilegeContext }
    let oldProcess := m.currentProcess
    let (picked, m) ← m.schedulerPickNextProcess
    let newProcess := picked.or m.idleProcess
    if newProcess = oldProcess then .ok m
    else do
      let m ← m.requeueOld oldProcess
      .ok (m.switchTo newProcess)

def schedulerYield : Checked SchedulerMemory :=
  if !m.gSchedulerInitialized then .ok m
  else schedulerSchedule { m with totalYields := m.totalYields + 1 }

def schedulerPreempt : Checked SchedulerMemory :=
  if !m.gSchedulerInitialized || !m.preemptionEnabled then .ok m
  else schedulerSchedule { m with totalPreemptions := m.totalPreemptions + 1 }

def schedulerTick : Checked SchedulerMemory :=
  if !m.gSchedulerInitialized || !m.schedulingEnabled then .ok m
  else
    let m := { m with currentQuantumRemaining := m.currentQuantumRemaining - 1 }
    if m.currentQuantumRemaining = 0 ∧ m.preemptionEnabled = true then m.schedulerPreempt
    else .ok m

def schedulerBlockProcess (fuel : Nat) : Option Nat → OptionT Checked SchedulerMemory
  | none => pure m
  | some p => do
    let m ← m.schedulerRemoveFromQueue fuel (some p)
    let m ← OptionT.lift (m.schedulerEnqueueBlocked (some p))
    if some p = m.currentProcess then OptionT.lift m.schedulerSchedule else pure m

def schedulerUnblockProcess (fuel : Nat) : Option Nat → OptionT Checked SchedulerMemory
  | none => pure m
  | some p => do
    let m ← m.remove fuel .blocked p
    OptionT.lift (m.schedulerEnqueueReady (some p))

def call (fuel : Nat) : SchedulerCall → OptionT Checked SchedulerMemory
  | .enqueueReady p => OptionT.lift (m.schedulerEnqueueReady p)
  | .schedule => OptionT.lift m.schedulerSchedule
  | .yield => OptionT.lift m.schedulerYield
  | .preempt => OptionT.lift m.schedulerPreempt
  | .tick => OptionT.lift m.schedulerTick
  | .blockProcess p => m.schedulerBlockProcess fuel p
  | .unblockProcess p => m.schedulerUnblockProcess fuel p

def event (fuel : Nat) : SchedulerEvent → OptionT Checked SchedulerMemory
  | .call c => m.call fuel c
  | .enqueueBlocked p => OptionT.lift (m.schedulerEnqueueBlocked p)
  | .removeFromQueue p => m.schedulerRemoveFromQueue fuel p
  | .dequeueReady => OptionT.lift (Prod.snd <$> m.dequeue .ready)
  | .pickNextProcess => OptionT.lift (Prod.snd <$> m.schedulerPickNextProcess)
  | .start => pure { m with schedulingEnabled := true, lastScheduleTime := 0 }
  | .stop => pure { m with schedulingEnabled := false }
  | .setAlgorithm algo => pure { m with algorithm := algo }
  | .setQuantum ms => pure { m with quantumMs := ms }
  | .processSetPriority p priority =>
    pure { m with processes := Function.update m.processes p { m.processes p with priority := priority } }

def events (fuel : Nat) (m : SchedulerMemory) (es : List SchedulerEvent) :
    OptionT Checked SchedulerMemory :=
  es.foldlM (fun m e => m.event fuel e) m

-- The globals of a fresh program image.
def coldBoot (processes : Nat → Process) (privilege : PrivilegeContext) : SchedulerMemory where
  nodes := Heap.empty
  queues := fun _ => ⟨none, none, 0⟩
  algorithm := .roundRobin
  currentProcess := none
  idleProcess := none
  totalContextSwitches := 0
  totalPreemptions := 0
  totalYields := 0
  quantumMs := 0
  lastScheduleTime := 0
  currentQuantumRemaining := 0
  preemptionEnabled := false
  schedulingEnabled := false
  gSchedulerInitialized := false
  processes := processes
  gPrivilegeContext := privilege

def schedulerInit : SchedulerMemory :=
  if m.gSchedulerInitialized then m
  else
    { m with
      gSchedulerInitialized := true
      queues := fun name => (queueInit (m.queueState name)).queue
      algorithm := .roundRobin
      currentProcess := none
      idleProcess := none
      totalContextSwitches := 0
      totalPreemptions := 0
      totalYields := 0
      quantumMs := schedulerQuantumMs
      lastScheduleTime := 0
      currentQuantumRemaining := 0
      preemptionEnabled := true
      schedulingEnabled := false }

-- The priority queues are freed, but no node is.
def schedulerCleanup : SchedulerMemory :=
  if !m.gSchedulerInitialized then m
  else
    { m with
      queues := fun name =>
        match name with
        | .priority _ => ⟨none, none, 0⟩
        | name => m.queues name
      gSchedulerInitialized := false }

def session (fuel : Nat) (m : SchedulerMemory) (es : List SchedulerEvent) :
    OptionT Checked SchedulerMemory := do
  let m ← m.schedulerInit.events fuel es
  pure m.schedulerCleanup

def sessions (fuel : Nat) (m : SchedulerMemory) (ess : List (List SchedulerEvent)) :
    OptionT Checked SchedulerMemory :=
  ess.foldlM (fun m es => m.session fuel es) m

end SchedulerMemory

end Source

section Lists

def SchedulerMemory.shown (m : SchedulerMemory) (lists : QueueName → List Nat) : SchedulerState where
  gScheduler :=
    { algorithm := m.algorithm
      currentProcess := m.currentProcess
      idleProcess := m.idleProcess
      readyQueue := lists .ready
      blockedQueue := lists .blocked
      priorityQueues := List.ofFn fun level => lists (.priority level)
      totalContextSwitches := m.totalContextSwitches
      totalPreemptions := m.totalPreemptions
      totalYields := m.totalYields
      quantumMs := m.quantumMs
      lastScheduleTime := m.lastScheduleTime
      currentQuantumRemaining := m.currentQuantumRemaining
      preemptionEnabled := m.preemptionEnabled
      schedulingEnabled := m.schedulingEnabled }
  gSchedulerInitialized := m.gSchedulerInitialized
  processes := m.processes
  gPrivilegeContext := m.gPrivilegeContext

-- Each queue is made of nodes of its own, and the only others are those that no queue points to.
def Stored (lost : List Nat) (m : SchedulerMemory) (lists : QueueName → List Nat) : Prop :=
  ∃ own : QueueName → List Nat, Partitioned m.nodes (fun owner : Option QueueName => owner.elim lost own) ∧
    ∀ name, Holds m.nodes (m.queues name) (own name) (lists name)

def Refines (lost : List Nat) (m : SchedulerMemory) (s : SchedulerState) : Prop :=
  ∃ lists, Stored lost m lists ∧ s = m.shown lists

def listOf (g : Scheduler) : QueueName → List Nat
  | .ready => g.readyQueue
  | .blocked => g.blockedQueue
  | .priority level => (g.priorityQueues[level.val]?).getD []

def withList (s : SchedulerState) (name : QueueName) (list : List Nat) : SchedulerState :=
  withScheduler s fun g =>
    match name with
    | .ready => { g with readyQueue := list }
    | .blocked => { g with blockedQueue := list }
    | .priority level => { g with priorityQueues := g.priorityQueues.set level list }

end Lists

section Queues

variable {m : SchedulerMemory} {s : SchedulerState} {lists : QueueName → List Nat}
variable {name : QueueName} {lost ps list : List Nat} {q : QueueState}

theorem listOf_shown (m : SchedulerMemory) (lists : QueueName → List Nat) (name : QueueName) :
    listOf (m.shown lists).gScheduler name = lists name := by
  cases name with
  | ready => rfl
  | blocked => rfl
  | priority level =>
    rw [listOf, SchedulerMemory.shown, List.getElem?_ofFn, dif_pos level.isLt]
    rfl

theorem ofFn_update {n : Nat} {α : Type} (f : Fin n → α) (i : Fin n) (a : α) :
    List.ofFn (Function.update f i a) = (List.ofFn f).set i a := by
  refine List.ext_getElem (by simp) fun k hk _ => ?_
  rw [List.getElem_set]
  by_cases hki : i.val = k
  · subst hki
    simp
  · rw [if_neg hki, List.getElem_ofFn, List.getElem_ofFn,
      Function.update_of_ne fun heq => hki (congrArg Fin.val heq).symm]

theorem shown_withQueue (m : SchedulerMemory) (lists : QueueName → List Nat) (name : QueueName)
    (q : QueueState) (list : List Nat) :
    (m.withQueue name q).shown (Function.update lists name list) =
      withList (m.shown lists) name list := by
  cases name with
  | ready => rfl
  | blocked => rfl
  | priority level =>
    have hlevels : (fun i => Function.update lists (.priority level) list (.priority i)) =
        Function.update (fun i => lists (.priority i)) level list := by
      funext i
      by_cases hi : i = level
      · subst hi
        rw [Function.update_self, Function.update_self]
      · rw [Function.update_of_ne hi, Function.update_of_ne (by simpa using hi)]
    simp only [SchedulerMemory.shown, SchedulerMemory.withQueue, hlevels, ofFn_update, withList,
      withScheduler]
    rfl

theorem Holds.congr {nodes nodes' : Heap ProcessQueueNode} {queue : ProcessQueue}
    (h : Holds nodes queue ps list) (hsame : ∀ p ∈ ps, nodes'.get p = nodes.get p) :
    Holds nodes' queue ps list := by
  obtain ⟨hlinked, hmap, hcount⟩ := h
  refine ⟨hlinked.congr (fun p hp => ?_) fun p hp => ?_, ?_, hcount⟩
  · rw [nextOf, nextOf, hsame p hp]
  · rw [prevOf, prevOf, hsame p hp]
  · rw [← hmap]
    exact List.map_congr_left fun p hp => by rw [processOf, processOf, hsame p hp]

theorem elim_update (lost : List Nat) (own : QueueName → List Nat) (name : QueueName) (ps : List Nat) :
    Function.update (fun owner : Option QueueName => owner.elim lost own) (some name) ps =
      fun owner => owner.elim lost (Function.update own name ps) := by
  funext owner
  cases owner with
  | none => rfl
  | some other =>
    by_cases hother : other = name
    · subst hother
      simp
    · simp [hother]

theorem Stored.withQueue {own : QueueName → List Nat}
    (hpart : Partitioned m.nodes fun owner : Option QueueName => owner.elim lost own)
    (hheld : ∀ name, Holds m.nodes (m.queues name) (own name) (lists name))
    (hq : Holds q.nodes q.queue ps list) (hturns : Turns m.nodes q.nodes (own name) ps) :
    Stored lost (m.withQueue name q) (Function.update lists name list) := by
  have hturned : Partitioned q.nodes (Function.update _ (some name) ps) := hpart.turn hturns
  rw [elim_update] at hturned
  refine ⟨Function.update own name ps, hturned, fun other => ?_⟩
  by_cases hother : other = name
  · subst hother
    simp only [SchedulerMemory.withQueue, Function.update_self]
    exact hq
  · simp only [SchedulerMemory.withQueue, Function.update_of_ne hother]
    exact (hheld other).congr fun p hp =>
      hpart.others (i := some name) (j := some other) hturns (by simpa using hother) hp

theorem Refines.withQueue {own : QueueName → List Nat}
    (hpart : Partitioned m.nodes fun owner : Option QueueName => owner.elim lost own)
    (hheld : ∀ name, Holds m.nodes (m.queues name) (own name) (lists name))
    (hq : Holds q.nodes q.queue ps list) (hturns : Turns m.nodes q.nodes (own name) ps) :
    Refines lost (m.withQueue name q) (withList (m.shown lists) name list) :=
  ⟨_, Stored.withQueue hpart hheld hq hturns, (shown_withQueue m lists name q list).symm⟩

theorem Refines.enqueue (h : Refines lost m s) (name : QueueName)
    (hroom : (listOf s.gScheduler name).length < 2147483647) (p : Nat) :
    ∃ m', m.enqueue name p = .ok m' ∧
      Refines lost m' (withList s name (Kernel.queueEnqueue (listOf s.gScheduler name) p)) := by
  obtain ⟨lists, ⟨own, hpart, hheld⟩, rfl⟩ := h
  rw [listOf_shown] at hroom ⊢
  obtain ⟨q, hrun, hq, hturns⟩ :=
    @Holds.enqueue (m.queueState name) (lists name) (own name) (hheld name) hroom p
  exact ⟨_, Outcome.map_eq_ok.mpr ⟨q, hrun, rfl⟩, Refines.withQueue hpart hheld hq hturns⟩

theorem Refines.dequeue (h : Refines lost m s) (name : QueueName) :
    ∃ m', m.dequeue name = .ok ((Kernel.queueDequeue (listOf s.gScheduler name)).1, m') ∧
      Refines lost m' (withList s name (Kernel.queueDequeue (listOf s.gScheduler name)).2) := by
  obtain ⟨lists, ⟨own, hpart, hheld⟩, rfl⟩ := h
  obtain ⟨q, ps, hrun, hq, hturns⟩ :=
    @Holds.dequeue (m.queueState name) (lists name) (own name) (hheld name)
  rw [listOf_shown]
  exact ⟨_, Outcome.map_eq_ok.mpr ⟨_, hrun, rfl⟩, Refines.withQueue hpart hheld hq hturns⟩

theorem Refines.remove (h : Refines lost m s) (name : QueueName) (p : Nat) :
    ∃ m', Refines lost m' (withList s name (Kernel.queueRemove (listOf s.gScheduler name) p)) ∧
      Settles (fun fuel => (m.remove fuel name p).run) m' := by
  obtain ⟨lists, ⟨own, hpart, hheld⟩, rfl⟩ := h
  obtain ⟨q, ps, ⟨hq, hturns⟩, hrun⟩ :=
    @Holds.remove (m.queueState name) (lists name) (own name) (hheld name) p
  rw [listOf_shown]
  refine ⟨_, Refines.withQueue hpart hheld hq hturns, (lists name).length + 1, fun fuel hfuel => ?_⟩
  exact congrArg (Functor.map (Option.map (m.withQueue name))) (hrun fuel hfuel)

end Queues

end ZoraVM.Kernel.Queues
