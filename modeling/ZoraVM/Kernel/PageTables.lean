import ZoraVM.Kernel.Mmu

namespace ZoraVM.Kernel

open Foundation

def pageAligned (a : Address) : Bool := a &&& 0xFFF == 0

def DecodesTo (m : Mmu) (dir : Address) (i : BitVec 10) (a : Address) : Prop :=
  ∃ d, m.directories dir = some d ∧ (d i).present = true ∧ tablePointer (d i) = a

section Encoding

variable {a : Address}

theorem toNat_tableAddrOf (a : Address) : (tableAddrOf a).toNat = a.toNat / 4096 % 2 ^ 20 := by
  simp only [tableAddrOf, pageShift, BitVec.toNat_setWidth, BitVec.toNat_ushiftRight,
    Nat.shiftRight_eq_div_pow]
  omega

theorem toNat_mod_of_aligned (h : pageAligned a = true) : a.toNat % 4096 = 0 := by
  have hand : a &&& 0xFFF = 0 := by simpa [pageAligned] using h
  have hnat : a.toNat &&& (2 ^ 12 - 1) = 0 := by simpa using congrArg BitVec.toNat hand
  rwa [Nat.and_two_pow_sub_one_eq_mod] at hnat

def widened (field : BitVec 20) : BitVec 32 := field.setWidth 32 <<< pageShift

theorem toNat_widened (field : BitVec 20) : (widened field).toNat = field.toNat * 4096 := by
  have hlt := field.isLt
  simp only [widened, pageShift, BitVec.toNat_shiftLeft, BitVec.toNat_setWidth,
    Nat.shiftLeft_eq]
  omega

theorem msb_widened (field : BitVec 20) : (widened field).msb = decide (2 ^ 19 ≤ field.toNat) := by
  rw [BitVec.msb_eq_decide, toNat_widened]
  simp only [decide_eq_decide]
  omega

theorem toNat_decode_of_low {field : BitVec 20} (h : field.toNat < 2 ^ 19) :
    ((widened field).signExtend 64).toNat = field.toNat * 4096 := by
  have hmsb : (widened field).msb = false := by
    rw [msb_widened]
    exact decide_eq_false (Nat.not_le_of_lt h)
  rw [BitVec.signExtend_eq_setWidth_of_msb_false hmsb, BitVec.toNat_setWidth, toNat_widened]
  omega

theorem toNat_decode_of_high {field : BitVec 20} (h : 2 ^ 19 ≤ field.toNat) :
    ((widened field).signExtend 64).toNat = 2 ^ 64 - 2 ^ 32 + field.toNat * 4096 := by
  have hmsb : (widened field).msb = true := by
    rw [msb_widened]
    exact decide_eq_true h
  have hlt := field.isLt
  rw [BitVec.toNat_signExtend, hmsb, if_pos rfl, BitVec.toNat_setWidth, toNat_widened]
  omega

theorem decode_encode_iff (halign : pageAligned a = true) (e : PageDirectoryEntry) :
    tablePointer { e with tableAddr := tableAddrOf a } = a ↔
      a.toNat < 2 ^ 31 ∨ 2 ^ 64 - 2 ^ 31 ≤ a.toNat := by
  have hmod := toNat_mod_of_aligned halign
  have hfield := toNat_tableAddrOf a
  have hlt := a.isLt
  have hdecode : tablePointer { e with tableAddr := tableAddrOf a } =
      (widened (tableAddrOf a)).signExtend 64 := rfl
  rw [hdecode, ← BitVec.toNat_inj]
  rcases Nat.lt_or_ge (tableAddrOf a).toNat (2 ^ 19) with hlow | hhigh
  · rw [toNat_decode_of_low hlow]
    omega
  · rw [toNat_decode_of_high hhigh]
    omega

end Encoding

section Creation

variable {m : Mmu} {d : PageDirectory} {dir a : Address} {i : BitVec 10}

def withTable (d : PageDirectory) (i : BitVec 10) (a : Address) : PageDirectory :=
  Function.update d i
    { d i with
      present := true
      writable := true
      userMode := true
      tableAddr := tableAddrOf a }

theorem getOrCreatePageTable_new (hdir : m.directories dir = some d)
    (hnew : (d i).present = false) :
    getOrCreatePageTable (some a) m (some dir) i = .ok (some a,
      { m with
        tables := Function.update m.tables a (some fun _ => clearTableEntry)
        directories := Function.update m.directories dir (some (withTable d i a)) }) := by
  simp [getOrCreatePageTable, readDirectory, hdir, hnew, withTable, bind, Except.bind]

theorem new_table_decodes_iff (hdir : m.directories dir = some d) (hnew : (d i).present = false)
    (halign : pageAligned a = true) :
    ∃ m', getOrCreatePageTable (some a) m (some dir) i = .ok (some a, m') ∧
      (DecodesTo m' dir i a ↔ a.toNat < 2 ^ 31 ∨ 2 ^ 64 - 2 ^ 31 ≤ a.toNat) := by
  refine ⟨_, getOrCreatePageTable_new hdir hnew, ?_⟩
  rw [← decode_encode_iff halign { d i with present := true, writable := true, userMode := true }]
  simp [DecodesTo, withTable]

def coldMmu : Mmu where
  tables := fun _ => none
  directories := fun _ => none
  gFrameAllocator := ⟨fun _ => 0, 0, 0, 0, 0⟩
  gTlbStats := ⟨0, 0, 0⟩

def oneDirectory : Mmu := (mmuCreatePageDirectory (some 0x10000) coldMmu).2

theorem new_table_decodes_iff_low :
    ∃ m', getOrCreatePageTable (some 0x20000) oneDirectory (some 0x10000) 5 =
        .ok (some 0x20000, m') ∧
      (DecodesTo m' 0x10000 5 0x20000 ↔
        (0x20000 : Address).toNat < 2 ^ 31 ∨ 2 ^ 64 - 2 ^ 31 ≤ (0x20000 : Address).toNat) :=
  new_table_decodes_iff (d := fun _ => clearDirectoryEntry) rfl rfl rfl

theorem high_table_lost :
    ¬ ∀ (m : Mmu) (d : PageDirectory) (dir a : Address) (i : BitVec 10),
      m.directories dir = some d → (d i).present = false → pageAligned a = true →
      ∃ m', getOrCreatePageTable (some a) m (some dir) i = .ok (some a, m') ∧
        DecodesTo m' dir i a := by
  intro hall
  obtain ⟨m', hcall, d', hdir', _, hpointer⟩ :=
    hall oneDirectory (fun _ => clearDirectoryEntry) 0x10000 0x100000000 5 rfl rfl rfl
  rw [getOrCreatePageTable_new (d := fun _ => clearDirectoryEntry) rfl rfl] at hcall
  obtain ⟨_, rfl⟩ := Prod.mk.inj (Except.ok.inj hcall)
  obtain rfl : withTable (fun _ => clearDirectoryEntry) 5 0x100000000 = d' := by simpa using hdir'
  exact absurd hpointer (by decide)

end Creation

end ZoraVM.Kernel
