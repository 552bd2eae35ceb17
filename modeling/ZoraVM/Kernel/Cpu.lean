import ZoraVM.Kernel.InterruptPrivilege

namespace ZoraVM.Kernel

open Foundation

def exceptionGeneralProtection : BitVec 32 := 0x0D
def exceptionInvalidOpcode : BitVec 32 := 0x06

-- Each privileged operation answers with the exceptions it raises; none touches any state.
section PrivilegedOperations

variable (c : PrivilegeContext)

def raiseUnless (flag : BitVec 32) : List (BitVec 32) :=
  if c.flags &&& flag = 0 then [exceptionGeneralProtection] else []

def privilegeCli : List (BitVec 32) := raiseUnless c privFlagSupervisor

def privilegeSti : List (BitVec 32) := raiseUnless c privFlagSupervisor

def privilegeHlt : List (BitVec 32) := raiseUnless c privFlagSupervisor

def privilegeIn (_port : BitVec 16) : BitVec 32 × List (BitVec 32) :=
  (if c.flags &&& privFlagIoAccess = 0 then 0xFFFFFFFF else 0, raiseUnless c privFlagIoAccess)

def privilegeOut (_port : BitVec 16) (_value : BitVec 32) : List (BitVec 32) :=
  raiseUnless c privFlagIoAccess

end PrivilegedOperations

structure CPUState where
  pc : BitVec 32
  sp : BitVec 32
  flags : BitVec 32
  running : Bool
  privilegeLevel : BitVec 32
  registers : List (BitVec 32)
  deriving DecidableEq, Repr

-- The static cpu before cpu_init.
def cpuZero : CPUState := ⟨0, 0, 0, false, 0, List.replicate 16 0⟩

def cpuInit (cpu : CPUState) : CPUState where
  pc := 0
  sp := 0x1000
  flags := 0
  running := true
  privilegeLevel := privilegeKernel
  registers := List.replicate 8 0 ++ cpu.registers.drop 8

def cpuCleanup (cpu : CPUState) : CPUState := { cpu with running := false }

def cpuChecked (cpu : CPUState) (done : CPUState × List (BitVec 32)) :
    CPUState × List (BitVec 32) :=
  if cpu.privilegeLevel ≠ privilegeKernel then (cpu, [exceptionGeneralProtection]) else done

def cpuExecuteInstruction (c : PrivilegeContext) (cpu : CPUState) (instruction : BitVec 32) :
    CPUState × List (BitVec 32) :=
  if instruction = 0x00 then (cpu, [])
  else if instruction = 0x01 then cpuChecked cpu ({ cpu with running := false }, [])
  else if instruction = 0xFA then cpuChecked cpu (cpu, privilegeCli c)
  else if instruction = 0xFB then cpuChecked cpu (cpu, privilegeSti c)
  else if instruction = 0xF4 then cpuChecked cpu (cpu, privilegeHlt c)
  else (cpu, [exceptionInvalidOpcode])

structure Machine where
  kernel : KernelState
  cpu : CPUState

def cpuRunStep (m : Machine) (byte : BitVec 8) : CPUState × List (BitVec 32) :=
  if m.cpu.running then
    let executed := cpuExecuteInstruction m.kernel.privilege m.cpu (byte.setWidth 32)
    ({ executed.1 with pc := executed.1.pc + 1 }, executed.2)
  else (m.cpu, [])

def interruptsEnable (k : KernelState) : KernelState × List (BitVec 32) :=
  let k := withController k fun c => { c with interruptsEnabled := true }
  (k, privilegeSti k.privilege)

def interruptsDisable (k : KernelState) : KernelState × List (BitVec 32) :=
  let k := withController k fun c => { c with interruptsEnabled := false }
  (k, privilegeCli k.privilege)

inductive PrivilegedCall where
  | cpuExecuteInstruction (instruction : BitVec 32)
  | privilegeCli
  | privilegeSti
  | privilegeHlt
  | privilegeIn (port : BitVec 16)
  | privilegeOut (port : BitVec 16) (value : BitVec 32)
  | interruptsEnable
  | interruptsDisable
  deriving DecidableEq, Repr

def privilegedCall (m : Machine) : PrivilegedCall → Machine × List (BitVec 32)
  | .cpuExecuteInstruction instruction =>
    let executed := cpuExecuteInstruction m.kernel.privilege m.cpu instruction
    ({ m with cpu := executed.1 }, executed.2)
  | .privilegeCli => (m, privilegeCli m.kernel.privilege)
  | .privilegeSti => (m, privilegeSti m.kernel.privilege)
  | .privilegeHlt => (m, privilegeHlt m.kernel.privilege)
  | .privilegeIn port => (m, (privilegeIn m.kernel.privilege port).2)
  | .privilegeOut port value => (m, privilegeOut m.kernel.privilege port value)
  | .interruptsEnable => ({ m with kernel := (interruptsEnable m.kernel).1 },
      (interruptsEnable m.kernel).2)
  | .interruptsDisable => ({ m with kernel := (interruptsDisable m.kernel).1 },
      (interruptsDisable m.kernel).2)

inductive MachineEvent where
  | privileged (call : PrivilegedCall)
  | kernel (call : KernelCall)
  | registerHandler (intNo : BitVec 8) (handler : InterruptHandler)
  | unregisterHandler (intNo : BitVec 8)
  | enterKernelMode
  | enterUserMode
  | cpuInit
  | cpuRunStep (byte : BitVec 8)
  | cpuCleanup
  deriving DecidableEq, Repr

section Events

variable (others : Nat → InterruptContext → KernelState → KernelState)

def machineEvent (m : Machine) : MachineEvent → Machine
  | .privileged c => (privilegedCall m c).1
  | .kernel c => { m with kernel := kernelCall others m.kernel c }
  | .registerHandler intNo handler =>
    { m with kernel := withController m.kernel fun c => interruptRegisterHandler c intNo handler }
  | .unregisterHandler intNo =>
    { m with kernel := withController m.kernel fun c => interruptUnregisterHandler c intNo }
  | .enterKernelMode => { m with kernel := withPrivilege m.kernel privilegeEnterKernelMode }
  | .enterUserMode => { m with kernel := withPrivilege m.kernel privilegeEnterUserMode }
  | .cpuInit => { m with cpu := cpuInit m.cpu }
  | .cpuRunStep byte => { m with cpu := (cpuRunStep m byte).1 }
  | .cpuCleanup => { m with cpu := cpuCleanup m.cpu }

def MachineReachable (m : Machine) : Prop :=
  ∃ processes kernelStackTop userStackTop events,
    Run (fun m e => some (machineEvent others m e)) (fun _ _ => True)
      ⟨booted processes kernelStackTop userStackTop, cpuZero⟩ events m

end Events

end ZoraVM.Kernel
