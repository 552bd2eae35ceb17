import ZoraVM.Kernel.MemoryBlocks
import ZoraVM.Kernel.UserModeFlags

namespace ZoraVM.Kernel

open Foundation

section Source

variable (m : MemoryState) (k : KernelState)

-- The loop of cpu_run, with the exceptions that its turns raise; `none` where it still runs.
def cpuRun : Nat → CPUState → Option (CPUState × List (BitVec 32))
  | 0, cpu => if cpu.running then none else some (cpu, [])
  | fuel + 1, cpu =>
    if cpu.running then
      let turn := cpuRunStep ⟨k, cpu⟩ (memoryRead m cpu.pc).toBitVec
      (cpuRun fuel turn.1).map fun ended => (ended.1, turn.2 ++ ended.2)
    else some (cpu, [])

end Source

section Turns

variable {m : MemoryState} {k : KernelState} {cpu ended : CPUState} {raised : List (BitVec 32)}
variable {fuel n : Nat} {pc : BitVec 32}

def haltOpcode : UInt8 := 0x01

-- NOP and, for the kernel, HALT raise nothing; CLI, STI and HLT ask for two privileges.
def raisedBy (c : PrivilegeContext) (level : BitVec 32) (opcode : UInt8) : List (BitVec 32) :=
  if opcode = 0x00 then []
  else if opcode = haltOpcode then
    if level = privilegeKernel then [] else [exceptionGeneralProtection]
  else if opcode ∈ [0xFA, 0xFB, 0xF4] then
    if level = privilegeKernel ∧ c.flags &&& privFlagSupervisor ≠ 0 then []
    else [exceptionGeneralProtection]
  else [exceptionInvalidOpcode]

def FirstHalt (m : MemoryState) (pc : BitVec 32) (n : Nat) : Prop :=
  memoryRead m (pc + BitVec.ofNat 32 n) = haltOpcode ∧
    ∀ i < n, memoryRead m (pc + BitVec.ofNat 32 i) ≠ haltOpcode

theorem widened_inj {a b : UInt8} :
    a.toBitVec.setWidth 32 = b.toBitVec.setWidth 32 ↔ a = b := by
  constructor
  · intro h
    have hnarrow := congrArg (BitVec.setWidth 8) h
    simp only [BitVec.setWidth_setWidth_of_le _ (by decide : 8 ≤ 32), BitVec.setWidth_eq] at hnarrow
    exact UInt8.toBitVec_inj.mp hnarrow
  · exact fun h => h ▸ rfl

theorem checked_raises (c : PrivilegeContext) (cpu : CPUState) :
    cpuChecked cpu (cpu, raiseUnless c privFlagSupervisor) =
      (cpu, if cpu.privilegeLevel = privilegeKernel ∧ c.flags &&& privFlagSupervisor ≠ 0 then []
        else [exceptionGeneralProtection]) := by
  unfold cpuChecked raiseUnless
  split_ifs <;> simp_all

theorem execute_eq (opcode : UInt8) :
    cpuExecuteInstruction k.privilege cpu (opcode.toBitVec.setWidth 32) =
      ({ cpu with running :=
          cpu.running && !(decide (opcode = haltOpcode ∧ cpu.privilegeLevel = privilegeKernel)) },
        raisedBy k.privilege cpu.privilegeLevel opcode) := by
  have hnop : (opcode.toBitVec.setWidth 32 = 0x00) ↔ opcode = 0x00 := @widened_inj opcode 0x00
  have hhalt : (opcode.toBitVec.setWidth 32 = 0x01) ↔ opcode = haltOpcode :=
    @widened_inj opcode haltOpcode
  have hcli : (opcode.toBitVec.setWidth 32 = 0xFA) ↔ opcode = 0xFA := @widened_inj opcode 0xFA
  have hsti : (opcode.toBitVec.setWidth 32 = 0xFB) ↔ opcode = 0xFB := @widened_inj opcode 0xFB
  have hhlt : (opcode.toBitVec.setWidth 32 = 0xF4) ↔ opcode = 0xF4 := @widened_inj opcode 0xF4
  by_cases hone : opcode = haltOpcode
  · subst hone
    by_cases hlevel : cpu.privilegeLevel = privilegeKernel
    · simp [cpuExecuteInstruction, raisedBy, cpuChecked, hlevel, haltOpcode]
    · simp [cpuExecuteInstruction, raisedBy, cpuChecked, hlevel, haltOpcode]
  · simp only [cpuExecuteInstruction, raisedBy, hnop, hhalt, hcli, hsti, hhlt, hone, if_false,
      false_and, decide_false, Bool.not_false, Bool.and_true, List.mem_cons, List.not_mem_nil,
      or_false, privilegeCli, privilegeSti, privilegeHlt, checked_raises]
    show _ = (cpu, _)
    split_ifs <;> simp_all

theorem turn_eq (hrunning : cpu.running = true) (opcode : UInt8) :
    cpuRunStep ⟨k, cpu⟩ opcode.toBitVec =
      ({ cpu with
          pc := cpu.pc + 1
          running := !(decide (opcode = haltOpcode ∧ cpu.privilegeLevel = privilegeKernel)) },
        raisedBy k.privilege cpu.privilegeLevel opcode) := by
  rw [cpuRunStep, if_pos hrunning]
  simp only [execute_eq, hrunning, Bool.true_and]

theorem cpuRun_stopped (hstopped : cpu.running = false) : cpuRun m k fuel cpu = some (cpu, []) := by
  cases fuel <;> rw [cpuRun, hstopped] <;> rfl

theorem first_address (pc : BitVec 32) : pc + BitVec.ofNat 32 0 = pc := BitVec.add_zero pc

theorem next_address (pc : BitVec 32) (n : Nat) :
    pc + BitVec.ofNat 32 (n + 1) = pc + 1 + BitVec.ofNat 32 n := by
  rw [Nat.add_comm, BitVec.ofNat_add, BitVec.add_assoc]
  rfl

theorem firstHalt_zero : FirstHalt m pc 0 ↔ memoryRead m pc = haltOpcode := by
  rw [FirstHalt, first_address]
  exact and_iff_left fun i hi => absurd hi (Nat.not_lt_zero i)

theorem firstHalt_succ :
    FirstHalt m pc (n + 1) ↔ memoryRead m pc ≠ haltOpcode ∧ FirstHalt m (pc + 1) n := by
  simp only [FirstHalt, next_address]
  constructor
  · rintro ⟨hhalt, hbefore⟩
    refine ⟨?_, hhalt, fun i hi => ?_⟩
    · have hfirst := hbefore 0 (Nat.succ_pos n)
      rwa [first_address] at hfirst
    · rw [← next_address]
      exact hbefore (i + 1) (Nat.succ_lt_succ hi)
  · rintro ⟨hfirst, hhalt, hbefore⟩
    refine ⟨hhalt, fun i hi => ?_⟩
    cases i with
    | zero => rwa [first_address]
    | succ i =>
      rw [next_address]
      exact hbefore i (Nat.lt_of_succ_lt_succ hi)

def raisedOver (m : MemoryState) (c : PrivilegeContext) (level pc : BitVec 32) (n : Nat) :
    List (BitVec 32) :=
  (List.range n).flatMap fun i => raisedBy c level (memoryRead m (pc + BitVec.ofNat 32 i))

theorem raisedOver_succ (c : PrivilegeContext) (level : BitVec 32) :
    raisedOver m c level pc (n + 1) =
      raisedBy c level (memoryRead m pc) ++ raisedOver m c level (pc + 1) n := by
  rw [raisedOver, List.range_succ_eq_map, List.flatMap_cons, List.flatMap_map, first_address]
  simp only [Nat.succ_eq_add_one, next_address]
  rfl

theorem cpuRun_halt (hrunning : cpu.running = true) (hlevel : cpu.privilegeLevel = privilegeKernel)
    (hhalt : memoryRead m cpu.pc = haltOpcode) :
    cpuRun m k (fuel + 1) cpu = some ({ cpu with pc := cpu.pc + 1, running := false }, []) := by
  have hraised : raisedBy k.privilege cpu.privilegeLevel haltOpcode = [] := by
    rw [raisedBy, if_neg (by decide), if_pos rfl, if_pos hlevel]
  rw [cpuRun, if_pos hrunning]
  simp only [turn_eq hrunning, hhalt, hlevel, and_self, decide_true, Bool.not_true]
  rw [cpuRun_stopped rfl, ← hlevel, hraised]
  rfl

theorem cpuRun_next (hrunning : cpu.running = true)
    (hgoes : ¬ (memoryRead m cpu.pc = haltOpcode ∧ cpu.privilegeLevel = privilegeKernel)) :
    cpuRun m k (fuel + 1) cpu = (cpuRun m k fuel { cpu with pc := cpu.pc + 1 }).map fun ended =>
      (ended.1, raisedBy k.privilege cpu.privilegeLevel (memoryRead m cpu.pc) ++ ended.2) := by
  rw [cpuRun, if_pos hrunning]
  simp only [turn_eq hrunning, decide_eq_false hgoes, Bool.not_false]
  rw [← hrunning]

theorem cpuRun_eq_some_iff (hrunning : cpu.running = true) :
    cpuRun m k fuel cpu = some (ended, raised) ↔
      cpu.privilegeLevel = privilegeKernel ∧ ∃ n < fuel, FirstHalt m cpu.pc n ∧
        ended = { cpu with pc := cpu.pc + BitVec.ofNat 32 (n + 1), running := false } ∧
        raised = raisedOver m k.privilege cpu.privilegeLevel cpu.pc n := by
  induction fuel generalizing cpu raised with
  | zero => simp [cpuRun, hrunning]
  | succ fuel ih =>
    by_cases hstop : memoryRead m cpu.pc = haltOpcode ∧ cpu.privilegeLevel = privilegeKernel
    · obtain ⟨hhalt, hlevel⟩ := hstop
      rw [cpuRun_halt hrunning hlevel hhalt, Option.some.injEq, Prod.mk.injEq]
      constructor
      · rintro ⟨rfl, rfl⟩
        exact ⟨hlevel, 0, Nat.succ_pos fuel, firstHalt_zero.mpr hhalt, rfl, rfl⟩
      · rintro ⟨-, n, -, hfirst, rfl, rfl⟩
        cases n with
        | zero => exact ⟨rfl, rfl⟩
        | succ n => exact absurd hhalt (firstHalt_succ.mp hfirst).1
    · rw [cpuRun_next hrunning hstop]
      simp only [Option.map_eq_some_iff, Prod.mk.injEq]
      have hnext := fun later => @ih { cpu with pc := cpu.pc + 1 } later hrunning
      constructor
      · rintro ⟨⟨ended', later⟩, hrun, rfl, rfl⟩
        obtain ⟨hlevel, n, hn, hfirst, rfl, rfl⟩ := (hnext later).mp hrun
        have hhere : memoryRead m cpu.pc ≠ haltOpcode := fun hhalt => hstop ⟨hhalt, hlevel⟩
        refine ⟨hlevel, n + 1, Nat.succ_lt_succ hn, firstHalt_succ.mpr ⟨hhere, hfirst⟩, ?_, ?_⟩
        · rw [next_address cpu.pc (n + 1)]
        · rw [raisedOver_succ]
      · rintro ⟨hlevel, n, hn, hfirst, rfl, rfl⟩
        cases n with
        | zero => exact absurd ⟨firstHalt_zero.mp hfirst, hlevel⟩ hstop
        | succ n =>
          refine ⟨⟨_, _⟩, (hnext _).mpr
            ⟨hlevel, n, Nat.lt_of_succ_lt_succ hn, (firstHalt_succ.mp hfirst).2, ?_, rfl⟩, rfl, ?_⟩
          · rw [next_address cpu.pc (n + 1)]
          · rw [raisedOver_succ]

end Turns

section Halting

variable {m : MemoryState} {k : KernelState} {cpu : CPUState} {pc : BitVec 32}

theorem FirstHalt.lt {n : Nat} (h : FirstHalt m pc n) : n < 2 ^ 32 := by
  by_contra hge
  refine h.2 (n - 2 ^ 32) (by omega) ?_
  have hsame : BitVec.ofNat 32 (n - 2 ^ 32) = BitVec.ofNat 32 n := by
    apply BitVec.eq_of_toNat_eq
    rw [BitVec.toNat_ofNat, BitVec.toNat_ofNat]
    omega
  rw [hsame]
  exact h.1

theorem exists_firstHalt {a : BitVec 32} (ha : memoryRead m a = haltOpcode) (pc : BitVec 32) :
    ∃ n, FirstHalt m pc n := by
  have hsome : ∃ n, memoryRead m (pc + BitVec.ofNat 32 n) = haltOpcode := by
    refine ⟨(a - pc).toNat, ?_⟩
    rw [BitVec.ofNat_toNat, BitVec.setWidth_eq, BitVec.add_comm, BitVec.sub_add_cancel]
    exact ha
  classical
  exact ⟨Nat.find hsome, Nat.find_spec hsome, fun i hi => Nat.find_min hsome hi⟩

theorem cpu_run_halts_iff (m : MemoryState) (k : KernelState) (hrunning : cpu.running = true) :
    ((∃ fuel ended, cpuRun m k fuel cpu = some ended) ↔
      cpu.privilegeLevel = privilegeKernel ∧ ∃ a, memoryRead m a = haltOpcode) ∧
    ∀ fuel ended raised, cpuRun m k fuel cpu = some (ended, raised) →
      ∃ n < 2 ^ 32, FirstHalt m cpu.pc n ∧
        ended = { cpu with pc := cpu.pc + BitVec.ofNat 32 (n + 1), running := false } ∧
        raised = raisedOver m k.privilege cpu.privilegeLevel cpu.pc n := by
  refine ⟨⟨?_, ?_⟩, ?_⟩
  · rintro ⟨fuel, ⟨ended, raised⟩, hrun⟩
    obtain ⟨hlevel, n, _, hfirst, _, _⟩ := (cpuRun_eq_some_iff hrunning).mp hrun
    exact ⟨hlevel, _, hfirst.1⟩
  · rintro ⟨hlevel, a, ha⟩
    obtain ⟨n, hfirst⟩ := exists_firstHalt ha cpu.pc
    exact ⟨n + 1, ⟨_, _⟩, (cpuRun_eq_some_iff hrunning).mpr
      ⟨hlevel, n, Nat.lt_succ_self n, hfirst, rfl, rfl⟩⟩
  · intro fuel ended raised hrun
    obtain ⟨_, n, _, hfirst, hended, hraised⟩ := (cpuRun_eq_some_iff hrunning).mp hrun
    exact ⟨n, hfirst.lt, hfirst, hended, hraised⟩

def userKernel : KernelState :=
  withPrivilege (booted numbered 0x1000 0x2000) privilegeEnterUserMode

def haltingProgram : MemoryState :=
  (memoryWriteBlock (memoryInit memoryState memorySize true) 0 [0xFB, 0x05, 0x01]).2

theorem cpu_run_halts_booted :
    ∃ fuel ended, cpuRun haltingProgram userKernel fuel (cpuInit cpuZero) = some ended :=
  (cpu_run_halts_iff haltingProgram userKernel rfl).1.mpr ⟨rfl, 2, rfl⟩

example : (cpuRun haltingProgram userKernel 3 (cpuInit cpuZero)).map
    (fun ended => (ended.1.pc, ended.2)) =
      some (3, [exceptionGeneralProtection, exceptionInvalidOpcode]) := by
  decide

end Halting

end ZoraVM.Kernel
