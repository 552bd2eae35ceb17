import ZoraVM.Foundation.CString
import ZoraVM.Foundation.SlotTable
import ZoraVM.Kernel.Scheduler

namespace ZoraVM.System

open Foundation Kernel

def maxProcesses : Nat := 256
def maxProcessName : Nat := 128
def maxProcessArgs : Nat := 1024

def procSigKill : Int := 9
def procSigTerm : Int := 15
def procSigCont : Int := 18
def procSigStop : Int := 19

-- The fields the scheduler does not read.
structure ProcessDetails where
  ppid : Int
  name : Bytes
  args : Bytes
  memoryUsed : Nat
  startTime : Int
  exitCode : Int
  deriving DecidableEq, Repr

structure ProcessTable where
  processes : List (Option Nat)
  nextPid : Int
  processCount : Int
  deriving DecidableEq, Repr

structure ProcessSystem where
  table : ProcessTable
  processes : Nat → Process
  details : Nat → ProcessDetails

def int32 (n : Int) : Int := n.bmod (2 ^ 32)

def ProcessSystem.place (s : ProcessSystem) (p : Nat) (process : Process)
    (details : ProcessDetails) : ProcessSystem :=
  { s with
    processes := Function.update s.processes p process
    details := Function.update s.details p details }

def ProcessSystem.withState (s : ProcessSystem) (p : Nat) (state : ProcessState) : ProcessSystem :=
  { s with processes := Function.update s.processes p { s.processes p with state := state } }

-- `memory` is what calloc answers.
def processInit (s : ProcessSystem) (memory : Option Nat) (now : Int) : ProcessSystem × Int :=
  let slots := List.replicate maxProcesses none
  match memory with
  | none => ({ s with table := ⟨slots, 1, 0⟩ }, -1)
  | some p =>
    ({ s.place p ⟨1, .running, .high⟩ ⟨0, str "init", str "init", 0, now, 0⟩ with
      table := ⟨slots.set 0 (some p), 2, 1⟩ }, 0)

def processCreate (s : ProcessSystem) (name args : Option Bytes) (priority : ProcessPriority)
    (memory : Option Nat) (now : Int) : ProcessSystem × Int :=
  match name with
  | none => (s, -1)
  | some name =>
    if s.table.processCount ≥ maxProcesses then (s, -1)
    else
      match firstFree s.table.processes with
      | none => (s, -1)
      | some slot =>
        match memory with
        | none => (s, -1)
        | some p =>
          let pid := s.table.nextPid
          let args := (args.map (clip maxProcessArgs)).getD []
          ({ s.place p ⟨pid, .running, priority⟩
              ⟨1, clip maxProcessName name, args, 1024 * 1024, now, 0⟩ with
            table :=
              { processes := s.table.processes.set slot (some p)
                nextPid := int32 (pid + 1)
                processCount := s.table.processCount + 1 } }, pid)

def hasPid (s : ProcessSystem) (pid : Int) (slot : Option Nat) : Bool :=
  slot.any fun p => (s.processes p).pid = pid

def processGet (s : ProcessSystem) (pid : Int) : Option Nat :=
  (entries s.table.processes).find? fun p => (s.processes p).pid = pid

def processRemove (s : ProcessSystem) (pid : Int) : ProcessSystem :=
  match s.table.processes.findIdx? (hasPid s pid) with
  | none => s
  | some slot =>
    { s with table := { s.table with
      processes := s.table.processes.set slot none
      processCount := s.table.processCount - 1 } }

def processKill (s : ProcessSystem) (pid signal : Int) : ProcessSystem × Int :=
  match processGet s pid with
  | none => (s, -1)
  | some p =>
    if pid = 1 then (s, -1)
    else if signal = procSigKill ∨ signal = procSigTerm then
      let s := s.withState p .zombie
      let details := { s.details p with exitCode := signal }
      (processRemove { s with details := Function.update s.details p details } pid, 0)
    else if signal = procSigStop then (s.withState p .stopped, 0)
    else if signal = procSigCont then (s.withState p .running, 0)
    else (s, 0)

-- `listed` says whether malloc had memory for the list.
def processList (s : ProcessSystem) (listed : Bool) : Option (List Nat) :=
  if listed then some ((entries s.table.processes).take s.table.processCount.toNat) else none

def processSetState (s : ProcessSystem) (pid : Int) (state : ProcessState) : ProcessSystem × Int :=
  match processGet s pid with
  | none => (s, -1)
  | some p => (s.withState p state, 0)

def processSetPriority (s : ProcessSystem) (pid : Int) (priority : ProcessPriority) :
    ProcessSystem × Int :=
  match processGet s pid with
  | none => (s, -1)
  | some p =>
    let process := { s.processes p with priority := priority }
    ({ s with processes := Function.update s.processes p process }, 0)

end ZoraVM.System
