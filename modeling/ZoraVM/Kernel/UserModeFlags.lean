import ZoraVM.Kernel.Cpu

namespace ZoraVM.Kernel

open Foundation

variable {m : Machine} {c : PrivilegedCall} {calls : List PrivilegedCall}

def flagsOf (m : Machine) : Bool × Bool := (m.cpu.running, m.kernel.gIntController.interruptsEnabled)

def afterCalls (m : Machine) (calls : List PrivilegedCall) : Machine :=
  calls.foldl (fun m c => (privilegedCall m c).1) m

def FlagsHeld (m : Machine) (calls : List PrivilegedCall) : Prop :=
  ∀ done, done <+: calls → flagsOf (afterCalls m done) = flagsOf m

def flips (m : Machine) : PrivilegedCall → Bool
  | .cpuExecuteInstruction instruction =>
    m.cpu.running && decide (instruction = 0x01) && decide (m.cpu.privilegeLevel = privilegeKernel)
  | .interruptsEnable => !m.kernel.gIntController.interruptsEnabled
  | .interruptsDisable => m.kernel.gIntController.interruptsEnabled
  | _ => false

section Step

theorem flips_execute (m : Machine) (instruction : BitVec 32) :
    flips m (.cpuExecuteInstruction instruction) =
      (m.cpu.running && decide (instruction = 0x01) &&
        decide (m.cpu.privilegeLevel = privilegeKernel)) := rfl

theorem flips_enable (m : Machine) :
    flips m .interruptsEnable = !m.kernel.gIntController.interruptsEnabled := rfl

theorem flips_disable (m : Machine) :
    flips m .interruptsDisable = m.kernel.gIntController.interruptsEnabled := rfl

theorem cpuChecked_level (cpu : CPUState) {done : CPUState × List (BitVec 32)}
    (hdone : done.1.privilegeLevel = cpu.privilegeLevel) :
    (cpuChecked cpu done).1.privilegeLevel = cpu.privilegeLevel := by
  unfold cpuChecked
  split
  · rfl
  · exact hdone

theorem cpuChecked_running (cpu : CPUState) {done : CPUState × List (BitVec 32)}
    (hdone : done.1.running = cpu.running) : (cpuChecked cpu done).1.running = cpu.running := by
  unfold cpuChecked
  split
  · rfl
  · exact hdone

theorem execute_level (p : PrivilegeContext) (cpu : CPUState) (instruction : BitVec 32) :
    (cpuExecuteInstruction p cpu instruction).1.privilegeLevel = cpu.privilegeLevel := by
  unfold cpuExecuteInstruction
  repeat' split
  all_goals first | rfl | exact cpuChecked_level cpu rfl

theorem execute_running (p : PrivilegeContext) (cpu : CPUState) (instruction : BitVec 32) :
    (cpuExecuteInstruction p cpu instruction).1.running =
      (cpu.running && !(decide (instruction = 0x01) &&
        decide (cpu.privilegeLevel = privilegeKernel))) := by
  by_cases hone : instruction = 0x01
  · subst hone
    by_cases hlevel : cpu.privilegeLevel = privilegeKernel <;>
      simp [cpuExecuteInstruction, cpuChecked, hlevel]
  · have hkept : (cpuExecuteInstruction p cpu instruction).1.running = cpu.running := by
      unfold cpuExecuteInstruction
      rw [if_neg hone]
      repeat' split
      all_goals first | rfl | exact cpuChecked_running cpu rfl
    rw [hkept, decide_eq_false hone]
    simp

theorem privilegedCall_level (m : Machine) (c : PrivilegedCall) :
    (privilegedCall m c).1.cpu.privilegeLevel = m.cpu.privilegeLevel := by
  cases c with
  | cpuExecuteInstruction instruction => exact execute_level _ _ _
  | _ => rfl

theorem flagsOf_call_iff (m : Machine) (c : PrivilegedCall) :
    flagsOf (privilegedCall m c).1 = flagsOf m ↔ flips m c = false := by
  cases c with
  | cpuExecuteInstruction instruction =>
    have hrun := execute_running m.kernel.privilege m.cpu instruction
    simp only [flagsOf, privilegedCall, flips_execute, Prod.mk.injEq, and_true, hrun]
    cases m.cpu.running <;> cases decide (instruction = 0x01) <;> simp
  | interruptsEnable =>
    rw [flips_enable]
    cases hon : m.kernel.gIntController.interruptsEnabled <;>
      simp [flagsOf, privilegedCall, interruptsEnable, withController, hon]
  | interruptsDisable =>
    rw [flips_disable]
    cases hon : m.kernel.gIntController.interruptsEnabled <;>
      simp [flagsOf, privilegedCall, interruptsDisable, withController, hon]
  | _ => exact iff_of_true rfl rfl

theorem flips_congr {m' : Machine} (hflags : flagsOf m' = flagsOf m)
    (hlevel : m'.cpu.privilegeLevel = m.cpu.privilegeLevel) (c : PrivilegedCall) :
    flips m' c = flips m c := by
  obtain ⟨hrun, hint⟩ := Prod.mk.inj hflags
  cases c with
  | cpuExecuteInstruction instruction => rw [flips_execute, flips_execute, hrun, hlevel]
  | interruptsEnable => rw [flips_enable, flips_enable, hint]
  | interruptsDisable => rw [flips_disable, flips_disable, hint]
  | _ => rfl

end Step

section Calls

theorem flagsHeld_cons :
    FlagsHeld m (c :: calls) ↔
      flagsOf (privilegedCall m c).1 = flagsOf m ∧ FlagsHeld (privilegedCall m c).1 calls := by
  constructor
  · intro h
    have hone : flagsOf (privilegedCall m c).1 = flagsOf m :=
      h [c] (List.cons_prefix_cons.mpr ⟨rfl, List.nil_prefix⟩)
    refine ⟨hone, fun done hdone => ?_⟩
    rw [hone]
    exact h (c :: done) (List.cons_prefix_cons.mpr ⟨rfl, hdone⟩)
  · rintro ⟨hone, hrest⟩ done hdone
    cases done with
    | nil => rfl
    | cons d done =>
      obtain ⟨rfl, htail⟩ := List.cons_prefix_cons.mp hdone
      exact (hrest done htail).trans hone

theorem flagsHeld_iff_flips : FlagsHeld m calls ↔ ∀ c ∈ calls, flips m c = false := by
  induction calls generalizing m with
  | nil =>
    refine iff_of_true ?_ (by simp)
    intro done hdone
    obtain rfl := List.prefix_nil.mp hdone
    rfl
  | cons c calls ih =>
    rw [flagsHeld_cons, List.forall_mem_cons, flagsOf_call_iff, ih]
    refine and_congr_right fun hone => ?_
    have hflags := (flagsOf_call_iff m c).mpr hone
    simp only [flips_congr hflags (privilegedCall_level m c)]

theorem cpuRunStep_level (m : Machine) (byte : BitVec 8) :
    (cpuRunStep m byte).1.privilegeLevel = m.cpu.privilegeLevel := by
  unfold cpuRunStep
  split
  · exact execute_level _ _ _
  · rfl

variable {others : Nat → InterruptContext → KernelState → KernelState}

theorem MachineReachable.cpu_level (h : MachineReachable others m) :
    m.cpu.privilegeLevel = privilegeKernel := by
  obtain ⟨processes, kernelStackTop, userStackTop, events, hrun⟩ := h
  induction hrun with
  | start => rfl
  | @call _ _ _ e _ _ hstep hs =>
    obtain rfl := Option.some.inj hstep
    cases e with
    | privileged c => exact (privilegedCall_level _ c).trans hs
    | cpuRunStep byte => exact (cpuRunStep_level _ byte).trans hs
    | cpuInit => rfl
    | _ => exact hs

end Calls

section Law

variable {others : Nat → InterruptContext → KernelState → KernelState}

theorem flags_held_iff (h : MachineReachable others m) :
    FlagsHeld m calls ↔
      (m.cpu.running = true → .cpuExecuteInstruction 0x01 ∉ calls) ∧
      (m.kernel.gIntController.interruptsEnabled = true → .interruptsDisable ∉ calls) ∧
      (m.kernel.gIntController.interruptsEnabled = false → .interruptsEnable ∉ calls) := by
  rw [flagsHeld_iff_flips]
  constructor
  · intro hall
    refine ⟨fun hrun hmem => ?_, fun hon hmem => ?_, fun hoff hmem => ?_⟩
    · have hflip := hall _ hmem
      simp [flips_execute, hrun, h.cpu_level] at hflip
    · have hflip := hall _ hmem
      simp [flips_disable, hon] at hflip
    · have hflip := hall _ hmem
      simp [flips_enable, hoff] at hflip
  · rintro ⟨hhalt, hdisable, henable⟩ c hmem
    cases c with
    | cpuExecuteInstruction instruction =>
      cases hrun : m.cpu.running with
      | false => simp [flips_execute, hrun]
      | true =>
        have hne : instruction ≠ 0x01 := by
          rintro rfl
          exact hhalt hrun hmem
        simp only [flips_execute, decide_eq_false hne, Bool.and_false, Bool.false_and]
    | interruptsEnable =>
      cases hon : m.kernel.gIntController.interruptsEnabled with
      | true => simp [flips_enable, hon]
      | false => exact absurd hmem (henable hon)
    | interruptsDisable =>
      cases hon : m.kernel.gIntController.interruptsEnabled with
      | true => exact absurd hmem (hdisable hon)
      | false => simp [flips_disable, hon]
    | _ => rfl

def userMachine : Machine :=
  [MachineEvent.cpuInit, .enterUserMode].foldl (machineEvent fun _ _ k => k)
    ⟨booted numbered 0x1000 0x2000, cpuZero⟩

theorem userMachine_reachable : MachineReachable (fun _ _ k => k) userMachine := by
  refine ⟨numbered, 0x1000, 0x2000, [] ++ [.cpuInit] ++ [.enterUserMode], ?_⟩
  exact .call (.call .start trivial rfl) trivial rfl

theorem flags_held_iff_user :
    FlagsHeld userMachine [.privilegeCli, .interruptsEnable, .cpuExecuteInstruction 0xFA] ↔
      (userMachine.cpu.running = true → .cpuExecuteInstruction 0x01 ∉
        [PrivilegedCall.privilegeCli, .interruptsEnable, .cpuExecuteInstruction 0xFA]) ∧
      (userMachine.kernel.gIntController.interruptsEnabled = true → .interruptsDisable ∉
        [PrivilegedCall.privilegeCli, .interruptsEnable, .cpuExecuteInstruction 0xFA]) ∧
      (userMachine.kernel.gIntController.interruptsEnabled = false → .interruptsEnable ∉
        [PrivilegedCall.privilegeCli, .interruptsEnable, .cpuExecuteInstruction 0xFA]) :=
  flags_held_iff userMachine_reachable

theorem user_halts_and_disables :
    ¬ ∀ (others : Nat → InterruptContext → KernelState → KernelState) (m : Machine)
      (calls : List PrivilegedCall), MachineReachable others m →
      m.kernel.privilege.currentLevel = privilegeUser → FlagsHeld m calls := by
  intro hall
  have hheld := hall _ userMachine [.cpuExecuteInstruction 0x01, .interruptsDisable]
    userMachine_reachable (by decide)
  have hflags := hheld _ List.prefix_rfl
  exact absurd hflags (by decide)

end Law

end ZoraVM.Kernel
