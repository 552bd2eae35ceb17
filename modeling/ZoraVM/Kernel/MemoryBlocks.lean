import ZoraVM.Kernel.MemoryMap

namespace ZoraVM.Kernel

open Foundation

-- What memcpy must not leave: the memory of the machine, and the caller's buffer.
inductive BlockFault where
  | outsideMemory
  | outsideBuffer
  deriving DecidableEq, Repr

section Blocks

variable (m : MemoryState) (address : BitVec 32) (buffer : Option Bytes) (size : BitVec 64)

def memoryRead : UInt8 :=
  match m.vmMemory with
  | none => 0
  | some mem =>
    if mem.initialized && decide (address.toNat < mem.size) then mem.data address.toNat else 0

def copyFault (mem : Memory) (bytes : Bytes) : Option BlockFault :=
  if mem.size < address.toNat + size.toNat then some .outsideMemory
  else if bytes.length < size.toNat then some .outsideBuffer
  else none

def stored (mem : Memory) (start count : Nat) : Bytes :=
  (List.range count).map fun i => mem.data (start + i)

def memoryReadBlock : Except BlockFault (Int × Option Bytes) :=
  match m.vmMemory, buffer with
  | some mem, some bytes =>
    if inBounds mem address size.toNat then
      match copyFault address size mem bytes with
      | some fault => .error fault
      | none => .ok (0, some (splice bytes 0 (stored mem address.toNat size.toNat)))
    else .ok (-1, buffer)
  | _, _ => .ok (-1, buffer)

def memoryWriteBlockSized : Except BlockFault (Int × MemoryState) :=
  match m.vmMemory, buffer with
  | some mem, some bytes =>
    if inBounds mem address size.toNat then
      match copyFault address size mem bytes with
      | some fault => .error fault
      | none => .ok (0, filled m address.toNat (bytes.take size.toNat))
    else .ok (-1, m)
  | _, _ => .ok (-1, m)

-- address + size without the wrap of size_t
def FitsMemory : Prop := address.toNat + size.toNat ≤ memoryGetTotal m

instance : Decidable (FitsMemory m address size) := inferInstanceAs (Decidable (_ ≤ _))

def sumWraps : Bool :=
  m.vmMemory.any fun mem => mem.initialized && decide (2 ^ 64 ≤ address.toNat + size.toNat ∧
    address.toNat + size.toNat - 2 ^ 64 ≤ mem.size)

structure BoundsChecked : Prop where
  map : (memoryMap m address size.toNat).isSome = true → FitsMemory m address size
  read : ∀ buffer, memoryReadBlock m address buffer size = .ok (-1, buffer) ∨
    FitsMemory m address size
  write : ∀ buffer, memoryWriteBlockSized m address buffer size = .ok (-1, m) ∨
    FitsMemory m address size
  found : ∀ bytes m', memoryWriteBlockSized m address (some bytes) size = .ok (0, m') →
    ∀ a : BitVec 32, some (memoryRead m' a) =
      if address.toNat ≤ a.toNat ∧ a.toNat < address.toNat + size.toNat
      then bytes[a.toNat - address.toNat]? else some (memoryRead m a)

end Blocks

variable {m m' : MemoryState} {mem : Memory} {address : BitVec 32} {size : BitVec 64}
  {bytes : Bytes}

def SizeFits (m : MemoryState) : Prop := memoryGetTotal m < 2 ^ 64

instance (m : MemoryState) : Decidable (SizeFits m) := inferInstanceAs (Decidable (_ < _))

theorem memoryGetTotal_some (hm : m.vmMemory = some mem) : memoryGetTotal m = mem.size := by
  rw [memoryGetTotal, hm]
  rfl

theorem inBounds_iff (hm : m.vmMemory = some mem) (hsize : SizeFits m) :
    inBounds mem address size.toNat = true ↔
      mem.initialized = true ∧ (FitsMemory m address size ∨ sumWraps m address size = true) := by
  have haddress := address.isLt
  have hlength := size.isLt
  rw [SizeFits, memoryGetTotal_some hm] at hsize
  rw [inBounds, FitsMemory, memoryGetTotal_some hm, sumWraps, hm]
  simp only [Option.any_some, Bool.and_eq_true, decide_eq_true_eq]
  constructor
  · rintro ⟨hinit, hle⟩
    refine ⟨hinit, ?_⟩
    by_cases hwrap : 2 ^ 64 ≤ address.toNat + size.toNat
    · rw [Nat.mod_eq_sub_mod hwrap, Nat.mod_eq_of_lt (by omega)] at hle
      exact .inr ⟨hinit, hwrap, hle⟩
    · rw [Nat.mod_eq_of_lt (by omega)] at hle
      exact .inl hle
  · rintro ⟨hinit, hfits | ⟨-, hwrap, hle⟩⟩
    · rw [Nat.mod_eq_of_lt (by omega)]
      exact ⟨hinit, hfits⟩
    · rw [Nat.mod_eq_sub_mod hwrap, Nat.mod_eq_of_lt (by omega)]
      exact ⟨hinit, hle⟩

theorem wraps_not_fits (hsize : SizeFits m) (hwraps : sumWraps m address size = true) :
    ¬ FitsMemory m address size := by
  intro hfits
  rw [sumWraps, Option.any_eq_true] at hwraps
  obtain ⟨mem, -, hmem⟩ := hwraps
  have hwrap := (of_decide_eq_true (Bool.and_eq_true_iff.mp hmem).2).1
  rw [FitsMemory] at hfits
  rw [SizeFits] at hsize
  omega

theorem map_isSome_iff : (memoryMap m address size.toNat).isSome = true ↔
    ∃ mem, m.vmMemory = some mem ∧ inBounds mem address size.toNat = true := by
  cases hm : m.vmMemory with
  | none => simp [memoryMap, hm]
  | some mem => simp [memoryMap, hm]

theorem bounds_of_map (hsize : SizeFits m)
    (hmap : (memoryMap m address size.toNat).isSome = true) :
    FitsMemory m address size ∨ sumWraps m address size = true := by
  obtain ⟨mem, hm, hbounds⟩ := map_isSome_iff.mp hmap
  exact ((inBounds_iff hm hsize).mp hbounds).2

theorem read_refused_or_map (buffer : Option Bytes) :
    memoryReadBlock m address buffer size = .ok (-1, buffer) ∨
      (memoryMap m address size.toNat).isSome = true := by
  cases hm : m.vmMemory with
  | none => exact .inl (by simp only [memoryReadBlock, hm])
  | some mem =>
    cases buffer with
    | none => exact .inl (by simp only [memoryReadBlock, hm])
    | some bytes =>
      by_cases hbounds : inBounds mem address size.toNat = true
      · exact .inr (map_isSome_iff.mpr ⟨mem, hm, hbounds⟩)
      · exact .inl (by simp only [memoryReadBlock, hm, if_neg hbounds])

theorem write_refused_or_map (buffer : Option Bytes) :
    memoryWriteBlockSized m address buffer size = .ok (-1, m) ∨
      (memoryMap m address size.toNat).isSome = true := by
  cases hm : m.vmMemory with
  | none => exact .inl (by simp only [memoryWriteBlockSized, hm])
  | some mem =>
    cases buffer with
    | none => exact .inl (by simp only [memoryWriteBlockSized, hm])
    | some bytes =>
      by_cases hbounds : inBounds mem address size.toNat = true
      · exact .inr (map_isSome_iff.mpr ⟨mem, hm, hbounds⟩)
      · exact .inl (by simp only [memoryWriteBlockSized, hm, if_neg hbounds])

theorem write_succeeds (h : memoryWriteBlockSized m address (some bytes) size = .ok (0, m')) :
    ∃ mem, m.vmMemory = some mem ∧ mem.initialized = true ∧
      address.toNat + size.toNat ≤ mem.size ∧ size.toNat ≤ bytes.length ∧
      m' = filled m address.toNat (bytes.take size.toNat) := by
  cases hm : m.vmMemory with
  | none =>
    simp only [memoryWriteBlockSized, hm] at h
    cases h
  | some mem =>
    simp only [memoryWriteBlockSized, hm] at h
    split at h
    · next hbounds =>
      have hinit := (Bool.and_eq_true_iff.mp hbounds).1
      by_cases hout : mem.size < address.toNat + size.toNat
      · rw [copyFault, if_pos hout] at h
        cases h
      · by_cases hshort : bytes.length < size.toNat
        · rw [copyFault, if_neg hout, if_pos hshort] at h
          cases h
        · rw [copyFault, if_neg hout, if_neg hshort] at h
          obtain ⟨-, rfl⟩ := Prod.mk.inj (Except.ok.inj h)
          exact ⟨mem, rfl, hinit, by omega, by omega, rfl⟩
    · cases h

theorem writeBlockSized_whole (hsize : SizeFits m) (hwhole : bytes.length = size.toNat)
    (hstraight : sumWraps m address size = false) :
    memoryWriteBlockSized m address (some bytes) size = .ok (memoryWriteBlock m address bytes) := by
  cases hm : m.vmMemory with
  | none => simp only [memoryWriteBlockSized, memoryWriteBlock, hm]
  | some mem =>
    by_cases hbounds : inBounds mem address size.toNat = true
    · have hfits : FitsMemory m address size :=
        (((inBounds_iff hm hsize).mp hbounds).2).resolve_right (by
          rw [hstraight]
          exact Bool.false_ne_true)
      rw [FitsMemory, memoryGetTotal_some hm] at hfits
      have hcopies : copyFault address size mem bytes = none := by
        rw [copyFault, if_neg (by omega), if_neg (by omega)]
      have htake : bytes.take size.toNat = bytes := List.take_of_length_le hwhole.le
      simp only [memoryWriteBlockSized, memoryWriteBlock, hm, hwhole, hbounds, if_true, hcopies,
        filled, Option.map_some, htake]
    · simp only [memoryWriteBlockSized, memoryWriteBlock, hm, hwhole, if_neg hbounds]

theorem read_filled (hm : m.vmMemory = some mem) (hinit : mem.initialized = true)
    {start : Nat} (a : BitVec 32) :
    memoryRead (filled m start bytes) a =
      if a.toNat < mem.size then overwrite mem.data start bytes a.toNat else 0 := by
  simp [memoryRead, filled, hm, hinit]

theorem write_found (h : memoryWriteBlockSized m address (some bytes) size = .ok (0, m'))
    (a : BitVec 32) : some (memoryRead m' a) =
      if address.toNat ≤ a.toNat ∧ a.toNat < address.toNat + size.toNat
      then bytes[a.toNat - address.toNat]? else some (memoryRead m a) := by
  obtain ⟨mem, hm, hinit, hfits, hlength, rfl⟩ := write_succeeds h
  rw [read_filled hm hinit]
  by_cases hinside : address.toNat ≤ a.toNat ∧ a.toNat < address.toNat + size.toNat
  · have hindex : a.toNat - address.toNat < size.toNat := by omega
    rw [if_pos hinside, if_pos (by omega), overwrite, if_pos hinside.1,
      List.getElem?_take_of_lt hindex, List.getElem?_eq_getElem (by omega)]
    rfl
  · have hsame : overwrite mem.data address.toNat (bytes.take size.toNat) a.toNat =
        mem.data a.toNat := by
      rw [overwrite]
      split
      · next hge =>
        rw [List.getElem?_eq_none (by rw [List.length_take]; omega)]
        rfl
      · rfl
    rw [if_neg hinside, hsame]
    simp [memoryRead, hm, hinit]

theorem bounds_checked_iff (m : MemoryState) (hsize : SizeFits m) (address : BitVec 32)
    (size : BitVec 64) :
    BoundsChecked m address size ↔ sumWraps m address size = false := by
  constructor
  · intro hchecked
    rw [← Bool.not_eq_true]
    intro hwraps
    refine wraps_not_fits hsize hwraps (hchecked.map (map_isSome_iff.mpr ?_))
    obtain ⟨mem, hm, hmem⟩ := Option.any_eq_true _ _ |>.mp hwraps
    exact ⟨mem, hm, (inBounds_iff hm hsize).mpr ⟨(Bool.and_eq_true_iff.mp hmem).1, .inr hwraps⟩⟩
  · intro hstraight
    have hfits (hmap : (memoryMap m address size.toNat).isSome = true) :
        FitsMemory m address size :=
      (bounds_of_map hsize hmap).resolve_right (by rw [hstraight]; exact Bool.false_ne_true)
    exact ⟨hfits, fun buffer => (read_refused_or_map buffer).imp_right hfits,
      fun buffer => (write_refused_or_map buffer).imp_right hfits,
      fun bytes m' h a => write_found h a⟩

def smallMemory : MemoryState := memoryInit memoryState 4096 true

theorem bounds_checked_iff_small :
    BoundsChecked smallMemory 4000 96 ↔ sumWraps smallMemory 4000 96 = false :=
  bounds_checked_iff smallMemory (by decide) 4000 96

theorem wrapped_length_mapped :
    ¬ ∀ (m : MemoryState) (address : BitVec 32) (size : BitVec 64), SizeFits m →
      BoundsChecked m address size := by
  intro hall
  have hmap := (hall smallMemory 1 (BitVec.allOnes 64) (by decide)).map (by decide)
  exact absurd hmap (by decide)

end ZoraVM.Kernel
