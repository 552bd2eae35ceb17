import Mathlib.Tactic

namespace ZoraVM.Kernel

def privilegeKernel : BitVec 32 := 0
def privilegeUser : BitVec 32 := 3

def privFlagSupervisor : BitVec 32 := 0x0001
def privFlagIoAccess : BitVec 32 := 0x0002
def privFlagMemManage : BitVec 32 := 0x0004
def privFlagInterrupt : BitVec 32 := 0x0008
def privFlagSyscall : BitVec 32 := 0x0010

def kernelModeFlags : BitVec 32 :=
  privFlagSupervisor ||| privFlagIoAccess ||| privFlagMemManage ||| privFlagInterrupt

structure PrivilegeContext where
  currentLevel : BitVec 32
  flags : BitVec 32
  kernelStack : BitVec 32
  userStack : BitVec 32
  currentEsp : BitVec 32
  deriving DecidableEq, Repr

-- The two arguments are the addresses of the static stack buffers, 16 bytes below their tops.
def privilegeInit (kernelStackTop userStackTop : BitVec 32) : PrivilegeContext where
  currentLevel := privilegeKernel
  flags := kernelModeFlags
  kernelStack := kernelStackTop
  userStack := userStackTop
  currentEsp := kernelStackTop

def privilegeEnterKernelMode (c : PrivilegeContext) : PrivilegeContext :=
  if c.currentLevel = privilegeKernel then c
  else
    { c with
      userStack := c.currentEsp
      currentEsp := c.kernelStack
      currentLevel := privilegeKernel
      flags := (c.flags ||| kernelModeFlags) &&& ~~~privFlagSyscall }

def privilegeEnterUserMode (c : PrivilegeContext) : PrivilegeContext :=
  if c.currentLevel = privilegeUser then c
  else
    { c with
      kernelStack := c.currentEsp
      currentEsp := c.userStack
      currentLevel := privilegeUser
      flags := (c.flags &&& ~~~kernelModeFlags) ||| privFlagSyscall }

def KernelFlagsClear (c : PrivilegeContext) : Prop :=
  c.flags &&& privFlagSupervisor = 0 ∧ c.flags &&& privFlagIoAccess = 0 ∧
    c.flags &&& privFlagMemManage = 0 ∧ c.flags &&& privFlagInterrupt = 0

instance (c : PrivilegeContext) : Decidable (KernelFlagsClear c) :=
  inferInstanceAs (Decidable (_ ∧ _ ∧ _ ∧ _))

def InUserMode (c : PrivilegeContext) : Prop :=
  c.currentLevel = privilegeUser ∧ KernelFlagsClear c

instance (c : PrivilegeContext) : Decidable (InUserMode c) :=
  inferInstanceAs (Decidable (_ ∧ _))

@[simp] theorem enterKernelMode_level (c : PrivilegeContext) :
    (privilegeEnterKernelMode c).currentLevel = privilegeKernel := by
  unfold privilegeEnterKernelMode
  split
  · assumption
  · rfl

@[simp] theorem enterKernelMode_idem (c : PrivilegeContext) :
    privilegeEnterKernelMode (privilegeEnterKernelMode c) = privilegeEnterKernelMode c :=
  if_pos (enterKernelMode_level c)

theorem not_inUserMode_of_kernel {c : PrivilegeContext} (h : c.currentLevel = privilegeKernel) :
    ¬ InUserMode c := by
  rintro ⟨hl, _⟩
  rw [h] at hl
  exact absurd hl (by decide)

theorem cleared_bit {x b : BitVec 32} (hmask : ~~~kernelModeFlags &&& b = 0)
    (hsys : privFlagSyscall &&& b = 0) :
    ((x &&& ~~~kernelModeFlags) ||| privFlagSyscall) &&& b = 0 := by
  rw [BitVec.and_or_distrib_right, BitVec.and_assoc, hmask, hsys]
  simp

theorem inUserMode_enterUserMode {c : PrivilegeContext} (h : c.currentLevel = privilegeKernel) :
    InUserMode (privilegeEnterUserMode c) := by
  have hne : c.currentLevel ≠ privilegeUser := by
    rw [h]
    decide
  rw [privilegeEnterUserMode, if_neg hne]
  refine ⟨rfl, cleared_bit ?_ ?_, cleared_bit ?_ ?_, cleared_bit ?_ ?_, cleared_bit ?_ ?_⟩ <;>
    decide

end ZoraVM.Kernel
