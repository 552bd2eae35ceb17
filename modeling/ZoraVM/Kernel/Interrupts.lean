import ZoraVM.Kernel.Scheduler

namespace ZoraVM.Kernel

inductive InterruptHandler where
  | exceptionDivideError
  | exceptionDebug
  | exceptionNmi
  | exceptionBreakpoint
  | exceptionOverflow
  | exceptionBoundRange
  | exceptionInvalidOpcode
  | exceptionDeviceNotAvailable
  | exceptionDoubleFault
  | exceptionInvalidTss
  | exceptionSegmentNotPresent
  | exceptionStackFault
  | exceptionGeneralProtection
  | exceptionPageFault
  | exceptionFpuError
  | exceptionAlignmentCheck
  | exceptionMachineCheck
  | exceptionSimdException
  | irqTimer
  | irqKeyboard
  | irqCascade
  | irqCom2
  | irqCom1
  | irqLpt2
  | irqFloppy
  | irqLpt1
  | irqRtc
  | irqMouse
  | irqCoprocessor
  | irqPrimaryAta
  | irqSecondaryAta
  | interruptSyscallHandler
  -- a handler from outside interrupts.c, known by its address
  | other (address : Nat)
  deriving DecidableEq, Repr

structure InterruptContext where
  intNo : BitVec 32
  deriving DecidableEq, Repr

structure InterruptStats where
  totalInterrupts : Nat
  handledInterrupts : Nat
  spuriousInterrupts : Nat
  nestedInterrupts : Nat
  interruptCounts : BitVec 8 → Nat

structure InterruptController where
  handlers : BitVec 8 → Option InterruptHandler
  stats : InterruptStats
  interruptsEnabled : Bool
  nestedLevel : Int

def kbBufferSize : Nat := 256

structure Keyboard where
  buffer : Nat → BitVec 8
  readPos : Nat
  writePos : Nat
  count : Nat

structure KernelState where
  scheduling : SchedulerState
  gIntController : InterruptController
  gSystemTicks : Nat
  keyboard : Keyboard

def KernelState.privilege (k : KernelState) : PrivilegeContext := k.scheduling.gPrivilegeContext

def withPrivilege (k : KernelState) (f : PrivilegeContext → PrivilegeContext) : KernelState :=
  { k with scheduling := { k.scheduling with
      gPrivilegeContext := f k.scheduling.gPrivilegeContext } }

def withController (k : KernelState) (f : InterruptController → InterruptController) :
    KernelState :=
  { k with gIntController := f k.gIntController }

def withStats (c : InterruptController) (f : InterruptStats → InterruptStats) :
    InterruptController :=
  { c with stats := f c.stats }

def interruptRegisterHandler (c : InterruptController) (intNo : BitVec 8)
    (handler : InterruptHandler) : InterruptController :=
  { c with handlers := Function.update c.handlers intNo (some handler) }

def interruptUnregisterHandler (c : InterruptController) (intNo : BitVec 8) :
    InterruptController :=
  { c with handlers := Function.update c.handlers intNo none }

def installedHandlers : List (BitVec 8 × InterruptHandler) :=
  [(0x00, .exceptionDivideError), (0x01, .exceptionDebug), (0x02, .exceptionNmi),
    (0x03, .exceptionBreakpoint), (0x04, .exceptionOverflow), (0x05, .exceptionBoundRange),
    (0x06, .exceptionInvalidOpcode), (0x07, .exceptionDeviceNotAvailable),
    (0x08, .exceptionDoubleFault), (0x0A, .exceptionInvalidTss),
    (0x0B, .exceptionSegmentNotPresent), (0x0C, .exceptionStackFault),
    (0x0D, .exceptionGeneralProtection), (0x0E, .exceptionPageFault), (0x10, .exceptionFpuError),
    (0x11, .exceptionAlignmentCheck), (0x12, .exceptionMachineCheck),
    (0x13, .exceptionSimdException), (0x20, .irqTimer), (0x21, .irqKeyboard),
    (0x80, .interruptSyscallHandler)]

def interruptsInit : InterruptController :=
  { installedHandlers.foldl (fun c e => interruptRegisterHandler c e.1 e.2)
      ⟨fun _ => none, ⟨0, 0, 0, 0, fun _ => 0⟩, false, 0⟩ with interruptsEnabled := true }

def irqTimer (k : KernelState) : KernelState :=
  { k with gSystemTicks := k.gSystemTicks + 1, scheduling := schedulerTick k.scheduling }

def irqKeyboard (k : KernelState) : KernelState :=
  if k.keyboard.count < kbBufferSize then
    { k with keyboard :=
      { k.keyboard with
        buffer := Function.update k.keyboard.buffer k.keyboard.writePos 0x1E
        writePos := (k.keyboard.writePos + 1) % kbBufferSize
        count := k.keyboard.count + 1 } }
  else k

section Dispatch

variable (others : Nat → InterruptContext → KernelState → KernelState)

-- Every handler of interrupts.c but the timer and the keyboard only prints; the page fault
-- handler reaches mmu_handle_cow_fault, which reads the directory and answers -1.
def runHandler (ctx : InterruptContext) (k : KernelState) : InterruptHandler → KernelState
  | .irqTimer => irqTimer k
  | .irqKeyboard => irqKeyboard k
  | .other address => others address ctx k
  | _ => k

def vector (ctx : InterruptContext) : BitVec 8 := ctx.intNo.setWidth 8

def dispatchEntry (ctx : InterruptContext) (k : KernelState) : KernelState :=
  let k := withController k fun c => withStats c fun st =>
    { st with
      totalInterrupts := st.totalInterrupts + 1
      interruptCounts := Function.update st.interruptCounts (vector ctx)
        (st.interruptCounts (vector ctx) + 1) }
  let k := withPrivilege k privilegeEnterKernelMode
  let k := withController k fun c => { c with nestedLevel := c.nestedLevel + 1 }
  withController k fun c =>
    if c.nestedLevel > 1 then
      withStats c fun st => { st with nestedInterrupts := st.nestedInterrupts + 1 }
    else c

def interruptDispatch (context : Option InterruptContext) (k : KernelState) : KernelState :=
  match context with
  | none => k
  | some ctx =>
    let k := dispatchEntry ctx k
    let k :=
      match k.gIntController.handlers (vector ctx) with
      | some handler =>
        withController (runHandler others ctx k handler) fun c => withStats c fun st =>
          { st with handledInterrupts := st.handledInterrupts + 1 }
      | none =>
        withController k fun c => withStats c fun st =>
          { st with spuriousInterrupts := st.spuriousInterrupts + 1 }
    withController k fun c => { c with nestedLevel := c.nestedLevel - 1 }

end Dispatch

end ZoraVM.Kernel
