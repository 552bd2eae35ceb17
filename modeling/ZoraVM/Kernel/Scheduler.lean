import ZoraVM.Kernel.Privilege

namespace ZoraVM.Kernel

inductive SchedulerAlgorithm where
  | roundRobin
  | priority
  | multilevel
  | realTime
  deriving DecidableEq, Repr

inductive ProcessState where
  | running
  | sleeping
  | stopped
  | zombie
  | dead
  deriving DecidableEq, Repr

inductive ProcessPriority where
  | realtime
  | high
  | normal
  | low
  | idle
  deriving DecidableEq, Repr

-- The value of the enumeration constant: the lower, the more urgent.
def ProcessPriority.value : ProcessPriority → Nat
  | .realtime => 0
  | .high => 1
  | .normal => 2
  | .low => 3
  | .idle => 4

structure Process where
  pid : Int
  state : ProcessState
  priority : ProcessPriority
  deriving DecidableEq, Repr

def schedulerQuantumMs : Nat := 10
def schedulerMaxQueues : Nat := 5

-- A process is named by its address; a queue is the list of addresses from head to tail.
structure Scheduler where
  algorithm : SchedulerAlgorithm
  currentProcess : Option Nat
  idleProcess : Option Nat
  readyQueue : List Nat
  blockedQueue : List Nat
  priorityQueues : List (List Nat)
  totalContextSwitches : Nat
  totalPreemptions : Nat
  totalYields : Nat
  quantumMs : Nat
  lastScheduleTime : Nat
  currentQuantumRemaining : Nat
  preemptionEnabled : Bool
  schedulingEnabled : Bool
  deriving DecidableEq, Repr

structure SchedulerState where
  gScheduler : Scheduler
  gSchedulerInitialized : Bool
  processes : Nat → Process
  gPrivilegeContext : PrivilegeContext

def setProcessState (s : SchedulerState) (p : Nat) (st : ProcessState) : SchedulerState :=
  { s with processes := Function.update s.processes p { s.processes p with state := st } }

def withScheduler (s : SchedulerState) (f : Scheduler → Scheduler) : SchedulerState :=
  { s with gScheduler := f s.gScheduler }

def queueEnqueue (q : List Nat) (p : Nat) : List Nat := q ++ [p]

def queueDequeue : List Nat → Option Nat × List Nat
  | [] => (none, [])
  | p :: q => (some p, q)

def queueRemove (q : List Nat) (p : Nat) : List Nat := q.erase p

def schedulerInit (s : SchedulerState) : SchedulerState :=
  if s.gSchedulerInitialized then s
  else
    { s with
      gSchedulerInitialized := true
      gScheduler :=
        { algorithm := .roundRobin
          currentProcess := none
          idleProcess := none
          readyQueue := []
          blockedQueue := []
          priorityQueues := List.replicate schedulerMaxQueues []
          totalContextSwitches := 0
          totalPreemptions := 0
          totalYields := 0
          quantumMs := schedulerQuantumMs
          lastScheduleTime := 0
          currentQuantumRemaining := 0
          preemptionEnabled := true
          schedulingEnabled := false } }

def schedulerStart (s : SchedulerState) : SchedulerState :=
  withScheduler s fun g => { g with schedulingEnabled := true, lastScheduleTime := 0 }

def schedulerStop (s : SchedulerState) : SchedulerState :=
  withScheduler s fun g => { g with schedulingEnabled := false }

def schedulerSetAlgorithm (s : SchedulerState) (algo : SchedulerAlgorithm) : SchedulerState :=
  withScheduler s fun g => { g with algorithm := algo }

def schedulerSetQuantum (s : SchedulerState) (ms : Nat) : SchedulerState :=
  withScheduler s fun g => { g with quantumMs := ms }

def schedulerEnqueueReady (s : SchedulerState) : Option Nat → SchedulerState
  | none => s
  | some p =>
    withScheduler (setProcessState s p .running) fun g =>
      { g with readyQueue := queueEnqueue g.readyQueue p }

def schedulerEnqueueBlocked (s : SchedulerState) : Option Nat → SchedulerState
  | none => s
  | some p =>
    withScheduler (setProcessState s p .sleeping) fun g =>
      { g with blockedQueue := queueEnqueue g.blockedQueue p }

def schedulerRemoveFromQueue (s : SchedulerState) : Option Nat → SchedulerState
  | none => s
  | some p =>
    withScheduler s fun g =>
      { g with
        readyQueue := queueRemove g.readyQueue p
        blockedQueue := queueRemove g.blockedQueue p }

def schedulerDequeueReady (g : Scheduler) : Option Nat × Scheduler :=
  ((queueDequeue g.readyQueue).1, { g with readyQueue := (queueDequeue g.readyQueue).2 })

-- The loop counts down from the last queue and drains the first non-empty one it meets.
def dequeuePriority (qs : List (List Nat)) : Nat → Option Nat × List (List Nat)
  | 0 => (none, qs)
  | i + 1 =>
    match qs[i]? with
    | some (p :: q) => (some p, qs.set i q)
    | _ => dequeuePriority qs i

def schedulerPickNextProcess (g : Scheduler) : Option Nat × Scheduler :=
  match g.algorithm with
  | .priority =>
    ((dequeuePriority g.priorityQueues schedulerMaxQueues).1,
      { g with priorityQueues := (dequeuePriority g.priorityQueues schedulerMaxQueues).2 })
  | _ => schedulerDequeueReady g

def schedulerContextSwitch (s : SchedulerState) (_oldProc newProc : Option Nat) : SchedulerState :=
  match newProc with
  | none => s
  | some p =>
    if (s.processes p).pid > 0 then
      { s with gPrivilegeContext := privilegeEnterUserMode s.gPrivilegeContext }
    else s

def requeueOld (s : SchedulerState) : Option Nat → SchedulerState
  | none => s
  | some p =>
    if (s.processes p).state = .running then
      schedulerEnqueueReady (setProcessState s p .running) (some p)
    else s

def switchTo (s : SchedulerState) (oldProcess : Option Nat) : Option Nat → SchedulerState
  | none => s
  | some p =>
    let s := withScheduler (setProcessState s p .running) fun g => { g with currentProcess := some p }
    withScheduler (schedulerContextSwitch s oldProcess (some p)) fun g =>
      { g with
        totalContextSwitches := g.totalContextSwitches + 1
        currentQuantumRemaining := g.quantumMs }

def schedulerSchedule (s : SchedulerState) : SchedulerState :=
  if !s.gSchedulerInitialized || !s.gScheduler.schedulingEnabled then s
  else
    let s := { s with gPrivilegeContext := privilegeEnterKernelMode s.gPrivilegeContext }
    let oldProcess := s.gScheduler.currentProcess
    let picked := schedulerPickNextProcess s.gScheduler
    let s := { s with gScheduler := picked.2 }
    let newProcess := picked.1.or s.gScheduler.idleProcess
    if newProcess = oldProcess then s
    else switchTo (requeueOld s oldProcess) oldProcess newProcess

def schedulerYield (s : SchedulerState) : SchedulerState :=
  if !s.gSchedulerInitialized then s
  else schedulerSchedule (withScheduler s fun g => { g with totalYields := g.totalYields + 1 })

def schedulerPreempt (s : SchedulerState) : SchedulerState :=
  if !s.gSchedulerInitialized || !s.gScheduler.preemptionEnabled then s
  else
    schedulerSchedule (withScheduler s fun g => { g with totalPreemptions := g.totalPreemptions + 1 })

def schedulerTick (s : SchedulerState) : SchedulerState :=
  if !s.gSchedulerInitialized || !s.gScheduler.schedulingEnabled then s
  else
    let s := withScheduler s fun g =>
      { g with currentQuantumRemaining := g.currentQuantumRemaining - 1 }
    if s.gScheduler.currentQuantumRemaining = 0 ∧ s.gScheduler.preemptionEnabled = true then
      schedulerPreempt s
    else s

def schedulerBlockProcess (s : SchedulerState) : Option Nat → SchedulerState
  | none => s
  | some p =>
    let s := schedulerEnqueueBlocked (schedulerRemoveFromQueue s (some p)) (some p)
    if some p = s.gScheduler.currentProcess then schedulerSchedule s else s

def schedulerUnblockProcess (s : SchedulerState) : Option Nat → SchedulerState
  | none => s
  | some p =>
    schedulerEnqueueReady
      (withScheduler s fun g => { g with blockedQueue := queueRemove g.blockedQueue p }) (some p)

end ZoraVM.Kernel
