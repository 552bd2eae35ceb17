import ZoraVM.Kernel.Descriptors

namespace ZoraVM.Kernel

open Foundation

def memorySize : Nat := 0x4000000
def mapAnonymous : BitVec 32 := 0x20
def mmapLimit : BitVec 32 := 0x60000000

structure Memory where
  data : Nat → UInt8
  size : Nat
  allocated : Nat
  initialized : Bool

structure MemoryState where
  vmMemory : Option Memory
  mmapBase : BitVec 32
  fileMmapBase : BitVec 32

def memoryState : MemoryState := ⟨none, 0x40000000, 0x30000000⟩

section Memory

variable (m : MemoryState)

-- `granted`: whether both mallocs succeed.
def memoryInit (size : Nat) (granted : Bool) : MemoryState :=
  match m.vmMemory with
  | some _ => m
  | none => if granted then { m with vmMemory := some ⟨fun _ => 0, size, size, true⟩ } else m

def memoryCleanup : MemoryState := { m with vmMemory := none }

def overwrite (data : Nat → UInt8) (start : Nat) (bytes : Bytes) : Nat → UInt8 :=
  fun i => if start ≤ i then (bytes[i - start]?).getD (data i) else data i

-- address + size is a size_t.
def inBounds (mem : Memory) (address : BitVec 32) (size : Nat) : Bool :=
  mem.initialized && decide ((address.toNat + size) % 2 ^ 64 ≤ mem.size)

def memoryWrite (address : BitVec 32) (value : UInt8) : MemoryState :=
  match m.vmMemory with
  | none => m
  | some mem =>
    if mem.initialized && decide (address.toNat < mem.size) then
      { m with vmMemory := some { mem with data := overwrite mem.data address.toNat [value] } }
    else m

def memoryWriteBlock (address : BitVec 32) (buffer : Bytes) : Int × MemoryState :=
  match m.vmMemory with
  | none => (-1, m)
  | some mem =>
    if inBounds mem address buffer.length then
      (0, { m with vmMemory := some { mem with data := overwrite mem.data address.toNat buffer } })
    else (-1, m)

-- The offset in the memory that the pointer stands for.
def memoryMap (address : BitVec 32) (size : Nat) : Option Nat :=
  match m.vmMemory with
  | none => none
  | some mem => if inBounds mem address size then some address.toNat else none

def memoryGetTotal : Nat := (m.vmMemory.map Memory.size).getD 0

def memoryGetFree : Nat :=
  (m.vmMemory.map fun mem => (mem.size + 2 ^ 64 - mem.allocated) % 2 ^ 64).getD 0

def filled (start : Nat) (bytes : Bytes) : MemoryState :=
  { m with vmMemory := m.vmMemory.map fun mem => { mem with data := overwrite mem.data start bytes } }

-- memset(mapped, 0, size)
def zeroed (start size : Nat) : MemoryState :=
  { m with vmMemory := m.vmMemory.map fun mem =>
    { mem with data := fun i => if start ≤ i ∧ i < start + size then 0 else mem.data i } }

end Memory

section Mmap

variable (k : SyscallState) (m : MemoryState)

def pageRounded (length : BitVec 32) : BitVec 32 := (length + 0xFFF) &&& ~~~0xFFF

-- The answer is a uint32_t returned as an int.
def sysMmap (_addr length _prot flags fd : BitVec 32) : Outcome (Int × MemoryState) :=
  if length = 0 ∨ memoryGetFree m < length.toNat then .ok (0, m)
  else if flags &&& mapAnonymous ≠ 0 then
    let aligned := pageRounded length
    if mmapLimit < m.mmapBase + aligned then .ok (0, m)
    else
      match memoryMap m m.mmapBase aligned.toNat with
      | none => .ok (0, m)
      | some mapped =>
        .ok (m.mmapBase.toInt,
          { zeroed m mapped aligned.toNat with mmapBase := m.mmapBase + aligned })
  else if validFd k fd.toNat then do
    let file := k.fdTable fd.toNat
    let mapSize := min length.toNat file.size
    match memoryMap m m.fileMmapBase mapSize with
    | none => .ok (0, m)
    | some mapped =>
      let bytes ← copyFrom k.vfs.blocks file.data 0 mapSize
      .ok (m.fileMmapBase.toInt,
        { filled m mapped bytes with fileMmapBase := m.fileMmapBase + BitVec.ofNat 32 mapSize })
  else .ok (0, m)

def sysMunmap (addr _length : BitVec 32) : Int :=
  if addr < 0x30000000 ∨ 0x60000000 ≤ addr then -1 else 0

end Mmap

section Runs

inductive MemoryCall where
  | memoryInit (size : Nat) (granted : Bool)
  | memoryCleanup
  | memoryWrite (address : BitVec 32) (value : UInt8)
  | memoryWriteBlock (address : BitVec 32) (buffer : Bytes)
  -- `k` is the descriptor table and the file system the call finds
  | sysMmap (k : SyscallState) (addr length prot flags fd : BitVec 32)

def memoryStep (m : MemoryState) : MemoryCall → Option MemoryState
  | .memoryInit size granted => some (memoryInit m size granted)
  | .memoryCleanup => some (memoryCleanup m)
  | .memoryWrite address value => some (memoryWrite m address value)
  | .memoryWriteBlock address buffer => some (memoryWriteBlock m address buffer).2
  | .sysMmap k addr length prot flags fd =>
    match sysMmap k m addr length prot flags fd with
    | .ok (_, m') => some m'
    | .error _ => none

def MemoryReachable (calls : List MemoryCall) (m : MemoryState) : Prop :=
  Run memoryStep (fun _ _ => True) (memoryInit memoryState memorySize true) calls m

end Runs

section Accounts

variable {k : SyscallState} {m m' : MemoryState} {mem : Memory}
variable {addr length prot flags fd : BitVec 32} {r : Int}

def AllAllocated (m : MemoryState) : Prop := ∀ mem, m.vmMemory = some mem → mem.allocated = mem.size

theorem AllAllocated.free (h : AllAllocated m) : memoryGetFree m = 0 := by
  unfold memoryGetFree
  cases hm : m.vmMemory with
  | none => rfl
  | some mem => simp [h mem hm]

theorem AllAllocated.of_accounts (h : AllAllocated m)
    (hsame : ∀ mem', m'.vmMemory = some mem' →
      ∃ mem, m.vmMemory = some mem ∧ mem'.size = mem.size ∧ mem'.allocated = mem.allocated) :
    AllAllocated m' := by
  intro mem' hm'
  obtain ⟨mem, hm, hsize, hallocated⟩ := hsame mem' hm'
  rw [hsize, hallocated, h mem hm]

theorem allAllocated_init (h : AllAllocated m) (size : Nat) (granted : Bool) :
    AllAllocated (memoryInit m size granted) := by
  intro mem' hm'
  unfold memoryInit at hm'
  cases hm : m.vmMemory with
  | some mem => exact h mem' (by simpa [hm] using hm')
  | none =>
    cases granted with
    | false => simp [hm] at hm'
    | true =>
      obtain rfl : _ = mem' := by simpa [hm] using hm'
      rfl

theorem allAllocated_write (h : AllAllocated m) (address : BitVec 32) (value : UInt8) :
    AllAllocated (memoryWrite m address value) := by
  refine h.of_accounts fun mem' hm' => ?_
  unfold memoryWrite at hm'
  cases hm : m.vmMemory with
  | none => simp [hm] at hm'
  | some mem =>
    simp only [hm] at hm'
    split at hm'
    · obtain rfl := Option.some.inj hm'
      exact ⟨mem, rfl, rfl, rfl⟩
    · exact ⟨mem', hm.symm.trans hm', rfl, rfl⟩

theorem allAllocated_writeBlock (h : AllAllocated m) (address : BitVec 32) (buffer : Bytes) :
    AllAllocated (memoryWriteBlock m address buffer).2 := by
  refine h.of_accounts fun mem' hm' => ?_
  unfold memoryWriteBlock at hm'
  cases hm : m.vmMemory with
  | none => simp [hm] at hm'
  | some mem =>
    simp only [hm] at hm'
    split at hm'
    · obtain rfl := Option.some.inj hm'
      exact ⟨mem, rfl, rfl, rfl⟩
    · exact ⟨mem', hm.symm.trans hm', rfl, rfl⟩

theorem sysMmap_refused (hfree : memoryGetFree m = 0) :
    sysMmap k m addr length prot flags fd = .ok (0, m) := by
  have hrefuse : length = 0 ∨ memoryGetFree m < length.toNat := by
    rw [hfree]
    by_cases hzero : length = 0
    · exact .inl hzero
    · exact .inr (Nat.pos_of_ne_zero fun h => hzero (BitVec.eq_of_toNat_eq h))
  rw [sysMmap, if_pos hrefuse]

theorem allAllocated_step {c : MemoryCall} (h : AllAllocated m) (hstep : memoryStep m c = some m') :
    AllAllocated m' := by
  cases c with
  | memoryInit size granted =>
    obtain rfl := Option.some.inj hstep
    exact allAllocated_init h size granted
  | memoryCleanup =>
    obtain rfl := Option.some.inj hstep
    intro mem hm
    cases hm
  | memoryWrite address value =>
    obtain rfl := Option.some.inj hstep
    exact allAllocated_write h address value
  | memoryWriteBlock address buffer =>
    obtain rfl := Option.some.inj hstep
    exact allAllocated_writeBlock h address buffer
  | sysMmap k addr length prot flags fd =>
    rw [memoryStep, sysMmap_refused h.free] at hstep
    obtain rfl := Option.some.inj hstep
    exact h

theorem mmapBase_step {c : MemoryCall} (h : AllAllocated m) (hstep : memoryStep m c = some m') :
    m'.mmapBase = m.mmapBase := by
  cases c with
  | memoryInit size granted =>
    obtain rfl := Option.some.inj hstep
    unfold memoryInit
    cases m.vmMemory with
    | some mem => rfl
    | none => cases granted <;> rfl
  | memoryCleanup =>
    obtain rfl := Option.some.inj hstep
    rfl
  | memoryWrite address value =>
    obtain rfl := Option.some.inj hstep
    unfold memoryWrite
    split
    · rfl
    · split <;> rfl
  | memoryWriteBlock address buffer =>
    obtain rfl := Option.some.inj hstep
    unfold memoryWriteBlock
    split
    · rfl
    · split <;> rfl
  | sysMmap k addr length prot flags fd =>
    rw [memoryStep, sysMmap_refused h.free] at hstep
    obtain rfl := Option.some.inj hstep
    rfl

theorem MemoryReachable.accounts {calls : List MemoryCall} (h : MemoryReachable calls m) :
    AllAllocated m ∧ m.mmapBase = 0x40000000 := by
  refine Run.invariant (P := fun m => AllAllocated m ∧ m.mmapBase = 0x40000000) ?_ ?_ h
  · exact ⟨allAllocated_init (fun mem hm => by cases hm) memorySize true, rfl⟩
  · intro s c s' hs _ hstep
    exact ⟨allAllocated_step hs.1 hstep, (mmapBase_step hs.1 hstep).trans hs.2⟩

end Accounts

section Window

variable {k : SyscallState} {m : MemoryState} {mem : Memory}
variable {addr length prot flags fd : BitVec 32} {calls : List MemoryCall}

def FitsWindow (m : MemoryState) (length : BitVec 32) : Prop :=
  0 < length.toNat ∧ length.toNat ≤ memoryGetTotal m ∧
    m.mmapBase.toNat + (pageRounded length).toNat ≤ mmapLimit.toNat

instance (m : MemoryState) (length : BitVec 32) : Decidable (FitsWindow m length) :=
  inferInstanceAs (Decidable (_ ∧ _ ∧ _))

def Mapped (k : SyscallState) (m : MemoryState) (addr length prot flags fd : BitVec 32) : Prop :=
  ∃ r m', sysMmap k m addr length prot flags fd = .ok (r, m') ∧ r ≠ 0 ∧ 0x1000 ∣ r

theorem window_outside (h : MemoryReachable calls m) (hm : m.vmMemory = some mem)
    (hsize : mem.size ≤ memorySize) (length : BitVec 32) :
    memoryMap m m.mmapBase (pageRounded length).toNat = none := by
  have hlength := (pageRounded length).isLt
  have hbase : m.mmapBase.toNat = 0x40000000 := by
    rw [h.accounts.2]
    rfl
  have hout : ¬ (m.mmapBase.toNat + (pageRounded length).toNat) % 2 ^ 64 ≤ mem.size := by
    rw [Nat.mod_eq_of_lt (by omega), hbase]
    unfold memorySize at hsize
    omega
  have hbounds : inBounds mem m.mmapBase (pageRounded length).toNat = false := by
    rw [inBounds, decide_eq_false hout, Bool.and_false]
  simp only [memoryMap, hm, hbounds, Bool.false_eq_true, if_false]

theorem mmap_never_maps (h : MemoryReachable calls m) : ¬ Mapped k m addr length prot flags fd := by
  rintro ⟨r, m', hcall, hr, _⟩
  rw [sysMmap_refused h.accounts.1.free] at hcall
  obtain ⟨rfl, rfl⟩ := Prod.mk.inj (Except.ok.inj hcall)
  exact hr rfl

def bootedKernel : SyscallState := syscallInit (Vfs.booted (Vfs.openHost []))

theorem mmap_never_maps_byte :
    ¬ Mapped bootedKernel (memoryInit memoryState memorySize true) 0 1 3 mapAnonymous 0 :=
  mmap_never_maps (.start : MemoryReachable [] _)

theorem one_byte_unmapped :
    ¬ ∀ (k : SyscallState) (calls : List MemoryCall) (m : MemoryState),
      MemoryReachable calls m → ∀ addr length prot flags fd : BitVec 32,
        flags &&& mapAnonymous ≠ 0 → FitsWindow m length →
        Mapped k m addr length prot flags fd := by
  intro hall
  obtain ⟨r, m', hcall, hr, _⟩ := hall bootedKernel [] (memoryInit memoryState memorySize true)
    .start 0 1 3 mapAnonymous 0 (by decide) (by decide)
  obtain ⟨rfl, _⟩ := Prod.mk.inj (Except.ok.inj hcall)
  exact hr rfl

end Window

end ZoraVM.Kernel
