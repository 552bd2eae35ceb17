import ZoraVM.Foundation.Run
import ZoraVM.Kernel.Privilege

namespace ZoraVM.Kernel

open Foundation

def maxSyscalls : Nat := 256

inductive SyscallHandler where
  | sysExit
  | sysFork
  | sysRead
  | sysWrite
  | sysOpen
  | sysClose
  | sysGetpid
  | sysGetuid
  | sysBrk
  | sysMmap
  | sysMunmap
  | sysSocket
  | sysBind
  | sysConnect
  | sysListen
  | sysAccept
  | sysSend
  | sysRecv
  | sysSendto
  | sysRecvfrom
  deriving DecidableEq, Repr

def syscallTableInit : Nat → Option SyscallHandler
  | 1 => some .sysExit
  | 2 => some .sysFork
  | 3 => some .sysRead
  | 4 => some .sysWrite
  | 5 => some .sysOpen
  | 6 => some .sysClose
  | 20 => some .sysGetpid
  | 24 => some .sysGetuid
  | 45 => some .sysBrk
  | 90 => some .sysMmap
  | 91 => some .sysMunmap
  | 200 => some .sysSocket
  | 201 => some .sysBind
  | 202 => some .sysConnect
  | 203 => some .sysListen
  | 204 => some .sysAccept
  | 208 => some .sysSend
  | 209 => some .sysRecv
  | 210 => some .sysSendto
  | 211 => some .sysRecvfrom
  | _ => none

structure SyscallArgs where
  arg1 : BitVec 32
  arg2 : BitVec 32
  arg3 : BitVec 32
  arg4 : BitVec 32
  arg5 : BitVec 32
  deriving DecidableEq, Repr

section Dispatch

-- The state of the files, the memory and the network, and what the handlers that work on it do;
-- one that does not return has no result. None of them refers to the privilege context.
variable {ω : Type} (call : SyscallHandler → SyscallArgs → ω → Option (BitVec 32 × ω))

structure SyscallMachine (ω : Type) where
  privilege : PrivilegeContext
  world : ω

def runSyscall (args : SyscallArgs) (world : ω) : SyscallHandler → Option (BitVec 32 × ω)
  | .sysExit => some (0, world)
  | .sysFork => some (0, world)
  | .sysGetpid => some (1, world)
  | .sysGetuid => some (0, world)
  | .sysBrk => some (args.arg1, world)
  | handler => call handler args world

def handlerOf (number : BitVec 32) : Option SyscallHandler :=
  if number.toNat ≥ maxSyscalls then none else syscallTableInit number.toNat

def syscallDispatch (m : SyscallMachine ω) (number : BitVec 32) (args : SyscallArgs) :
    Option (BitVec 32 × SyscallMachine ω) :=
  if number.toNat ≥ maxSyscalls then some (-1, m)
  else
    match syscallTableInit number.toNat with
    | none => some (-1, m)
    | some handler =>
      let privilege := privilegeEnterKernelMode m.privilege
      match runSyscall call args m.world handler with
      | none => none
      | some (result, world) => some (result, ⟨privilegeEnterUserMode privilege, world⟩)

end Dispatch

inductive ModeSwitch where
  | enterKernelMode
  | enterUserMode
  deriving DecidableEq, Repr

def modeSwitch (c : PrivilegeContext) : ModeSwitch → PrivilegeContext
  | .enterKernelMode => privilegeEnterKernelMode c
  | .enterUserMode => privilegeEnterUserMode c

abbrev ModeRun (kernelStackTop userStackTop : BitVec 32) :=
  Run (fun c m => some (modeSwitch c m)) (fun _ _ => True)
    (privilegeInit kernelStackTop userStackTop)

def SameMode (c d : PrivilegeContext) : Prop :=
  d.currentLevel = c.currentLevel ∧ d.flags = c.flags ∧ d.currentEsp = c.currentEsp ∧
    d.kernelStack = c.kernelStack

instance (c d : PrivilegeContext) : Decidable (SameMode c d) :=
  inferInstanceAs (Decidable (_ ∧ _ ∧ _ ∧ _))

section Modes

variable {c : PrivilegeContext} {kernelStackTop userStackTop : BitVec 32}

def OfMode (c : PrivilegeContext) : Prop :=
  (c.currentLevel = privilegeKernel ∧ c.flags = kernelModeFlags) ∨
    (c.currentLevel = privilegeUser ∧ c.flags = privFlagSyscall)

theorem user_not_kernel (h : c.currentLevel = privilegeUser) : ¬ c.currentLevel = privilegeKernel := by
  rw [h]
  decide

theorem enterKernelMode_of_user (h : c.currentLevel = privilegeUser) :
    privilegeEnterKernelMode c = { c with
      userStack := c.currentEsp
      currentEsp := c.kernelStack
      currentLevel := privilegeKernel
      flags := (c.flags ||| kernelModeFlags) &&& ~~~privFlagSyscall } :=
  if_neg (user_not_kernel h)

theorem enterUserMode_of_kernel (h : c.currentLevel = privilegeKernel) :
    privilegeEnterUserMode c = { c with
      kernelStack := c.currentEsp
      currentEsp := c.userStack
      currentLevel := privilegeUser
      flags := (c.flags &&& ~~~kernelModeFlags) ||| privFlagSyscall } := by
  refine if_neg ?_
  rw [h]
  decide

theorem flags_to_user :
    (kernelModeFlags &&& ~~~kernelModeFlags) ||| privFlagSyscall = privFlagSyscall := by decide

theorem flags_to_kernel :
    (privFlagSyscall ||| kernelModeFlags) &&& ~~~privFlagSyscall = kernelModeFlags := by decide

theorem ofMode_switch (h : OfMode c) (m : ModeSwitch) : OfMode (modeSwitch c m) := by
  rcases h with ⟨hlevel, hflags⟩ | ⟨hlevel, hflags⟩
  · cases m with
    | enterKernelMode =>
      rw [modeSwitch, privilegeEnterKernelMode, if_pos hlevel]
      exact .inl ⟨hlevel, hflags⟩
    | enterUserMode =>
      rw [modeSwitch, enterUserMode_of_kernel hlevel, hflags]
      exact .inr ⟨rfl, flags_to_user⟩
  · cases m with
    | enterKernelMode =>
      rw [modeSwitch, enterKernelMode_of_user hlevel, hflags]
      exact .inl ⟨rfl, flags_to_kernel⟩
    | enterUserMode =>
      rw [modeSwitch, privilegeEnterUserMode, if_pos hlevel]
      exact .inr ⟨hlevel, hflags⟩

theorem ofMode_run {switches : List ModeSwitch}
    (hrun : ModeRun kernelStackTop userStackTop switches c) : OfMode c := by
  refine hrun.invariant (.inl ⟨rfl, rfl⟩) ?_
  intro c m c' hc _ hstep
  obtain rfl := Option.some.inj hstep
  exact ofMode_switch hc m

theorem round_trip_user (h : OfMode c) (hlevel : c.currentLevel = privilegeUser) :
    SameMode c (privilegeEnterUserMode (privilegeEnterKernelMode c)) := by
  have hflags : c.flags = privFlagSyscall := by
    rcases h with ⟨hkernel, -⟩ | ⟨-, hflags⟩
    · exact absurd hkernel (user_not_kernel hlevel)
    · exact hflags
  rw [enterUserMode_of_kernel (enterKernelMode_level c), enterKernelMode_of_user hlevel]
  refine ⟨hlevel.symm, ?_, rfl, rfl⟩
  rw [hflags, flags_to_kernel, flags_to_user]

theorem round_trip_kernel (hlevel : c.currentLevel = privilegeKernel) :
    ¬ SameMode c (privilegeEnterUserMode (privilegeEnterKernelMode c)) := by
  rintro ⟨hsame, -⟩
  rw [enterUserMode_of_kernel (enterKernelMode_level c), hlevel] at hsame
  change privilegeUser = privilegeKernel at hsame
  exact absurd hsame (by decide)

end Modes

section Law

variable {ω : Type} {call : SyscallHandler → SyscallArgs → ω → Option (BitVec 32 × ω)}
variable {m m' : SyscallMachine ω} {number result : BitVec 32} {args : SyscallArgs}

theorem syscallDispatch_cases (h : syscallDispatch call m number args = some (result, m')) :
    (handlerOf number = none ∧ result = -1 ∧ m' = m) ∨
    (∃ handler, handlerOf number = some handler ∧
      m'.privilege = privilegeEnterUserMode (privilegeEnterKernelMode m.privilege)) := by
  rw [syscallDispatch] at h
  rw [handlerOf]
  rcases Decidable.em (number.toNat ≥ maxSyscalls) with hrange | hrange
  · rw [if_pos hrange] at h
    obtain ⟨rfl, rfl⟩ := Prod.mk.inj (Option.some.inj h)
    exact .inl ⟨if_pos hrange, rfl, rfl⟩
  · rw [if_neg hrange] at h ⊢
    cases hentry : syscallTableInit number.toNat with
    | none =>
      rw [hentry] at h
      obtain ⟨rfl, rfl⟩ := Prod.mk.inj (Option.some.inj h)
      exact .inl ⟨rfl, rfl, rfl⟩
    | some handler =>
      simp only [hentry] at h
      cases hrun : runSyscall call args m.world handler with
      | none =>
        rw [hrun] at h
        cases h
      | some done =>
        rw [hrun] at h
        obtain ⟨-, rfl⟩ := Prod.mk.inj (Option.some.inj h)
        exact .inr ⟨handler, rfl, rfl⟩

theorem dispatch_preserves_mode_iff {kernelStackTop userStackTop : BitVec 32}
    {switches : List ModeSwitch} (hrun : ModeRun kernelStackTop userStackTop switches m.privilege)
    (h : syscallDispatch call m number args = some (result, m')) :
    SameMode m.privilege m'.privilege ↔
      m.privilege.currentLevel = privilegeUser ∨ handlerOf number = none := by
  have hmode := ofMode_run hrun
  rcases syscallDispatch_cases h with ⟨hnone, -, rfl⟩ | ⟨handler, hsome, hprivilege⟩
  · exact iff_of_true ⟨rfl, rfl, rfl, rfl⟩ (.inr hnone)
  · rw [hprivilege]
    rcases hmode with ⟨hlevel, -⟩ | ⟨hlevel, hflags⟩
    · refine iff_of_false (round_trip_kernel hlevel) ?_
      rintro (huser | hnone)
      · exact user_not_kernel huser hlevel
      · rw [hsome] at hnone
        cases hnone
    · exact iff_of_true (round_trip_user (.inr ⟨hlevel, hflags⟩) hlevel) (.inl hlevel)

def noOthers : SyscallHandler → SyscallArgs → Unit → Option (BitVec 32 × Unit) :=
  fun _ _ _ => some (-1, ())

def inKernel : SyscallMachine Unit := ⟨privilegeInit 0x1000 0x2000, ()⟩

def inUser : SyscallMachine Unit := ⟨privilegeEnterUserMode (privilegeInit 0x1000 0x2000), ()⟩

def afterGetpid : SyscallMachine Unit :=
  ⟨privilegeEnterUserMode (privilegeEnterKernelMode inUser.privilege), ()⟩

theorem getpid_from_user :
    syscallDispatch noOthers inUser 20 ⟨0, 0, 0, 0, 0⟩ = some (1, afterGetpid) := rfl

theorem dispatch_preserves_mode_getpid : SameMode inUser.privilege afterGetpid.privilege ↔
    inUser.privilege.currentLevel = privilegeUser ∨ handlerOf 20 = none :=
  dispatch_preserves_mode_iff (.call (i := .enterUserMode) .start trivial rfl) getpid_from_user

theorem dispatch_from_kernel_returns_in_user :
    ¬ ∀ (kernelStackTop userStackTop : BitVec 32) (switches : List ModeSwitch)
      (m m' : SyscallMachine Unit) (number result : BitVec 32) (args : SyscallArgs),
      ModeRun kernelStackTop userStackTop switches m.privilege →
      syscallDispatch noOthers m number args = some (result, m') →
      SameMode m.privilege m'.privilege := by
  intro hall
  have h := hall 0x1000 0x2000 [] inKernel _ 20 1 ⟨0, 0, 0, 0, 0⟩ .start rfl
  exact absurd h (by decide)

end Law

end ZoraVM.Kernel
