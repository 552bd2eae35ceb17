import ZoraVM.Foundation.Memory
import ZoraVM.Foundation.OnesComplement

namespace ZoraVM.Kernel

open Foundation

def ipPacketSize : Nat := 65535

-- The host is little-endian: the first byte of a uint16_t is the low one.
def word (lo hi : UInt8) : BitVec 16 := hi.toBitVec ++ lo.toBitVec

def sumWords (sum : BitVec 32) : Bytes → BitVec 32
  | lo :: hi :: rest => sumWords (sum + (word lo hi).setWidth 32) rest
  | [last] => sum + last.toBitVec.setWidth 32
  | [] => sum

theorem sum_split (sum : BitVec 32) :
    (sum &&& 0xFFFF#32).toNat = sum.toNat % 65536 ∧ (sum >>> 16).toNat = sum.toNat / 65536 := by
  constructor
  · rw [BitVec.toNat_and]
    exact Nat.and_two_pow_sub_one_eq_mod sum.toNat 16
  · rw [BitVec.toNat_ushiftRight, Nat.shiftRight_eq_div_pow]

theorem fold_toNat (sum : BitVec 32) :
    ((sum &&& 0xFFFF#32) + (sum >>> 16)).toNat = sum.toNat % 65536 + sum.toNat / 65536 := by
  obtain ⟨hlow, hhigh⟩ := sum_split sum
  have hlt := sum.isLt
  rw [BitVec.toNat_add, hlow, hhigh, Nat.mod_eq_of_lt]
  omega

theorem no_carry_iff (sum : BitVec 32) : sum >>> 16 = 0 ↔ sum.toNat ≤ 65535 := by
  rw [← BitVec.toNat_inj, (sum_split sum).2]
  change sum.toNat / 65536 = 0 ↔ _
  omega

theorem fold_lt {sum : BitVec 32} (h : ¬ sum >>> 16 = 0) :
    ((sum &&& 0xFFFF#32) + (sum >>> 16)).toNat < sum.toNat := by
  rw [no_carry_iff] at h
  rw [fold_toNat]
  omega

def foldCarries (sum : BitVec 32) : BitVec 32 :=
  if sum >>> 16 = 0 then sum else foldCarries ((sum &&& 0xFFFF#32) + (sum >>> 16))
termination_by sum.toNat
decreasing_by exact fold_lt ‹_›

def netstackChecksum (data : Bytes) : BitVec 16 := (~~~ foldCarries (sumWords 0 data)).setWidth 16

def littleWords : Bytes → List Nat
  | lo :: hi :: rest => (word lo hi).toNat :: littleWords rest
  | [last] => [last.toNat]
  | [] => []

def onesSum (data : Bytes) : Nat := carrySum 0xFFFF (littleWords data)

def wordBytes (w : BitVec 16) : Bytes := [⟨w.setWidth 8⟩, ⟨(w >>> 8).setWidth 8⟩]

variable {data pre post : Bytes} {sum : BitVec 32} {offset : Nat}

section Sum

theorem littleWords_le (data : Bytes) : ∀ x ∈ littleWords data, x ≤ 0xFFFF := by
  fun_induction littleWords data with
  | case1 lo hi rest ih =>
    intro x hx
    rcases List.mem_cons.mp hx with rfl | hx
    · exact Nat.le_of_lt_succ (word lo hi).isLt
    · exact ih x hx
  | case2 last =>
    intro x hx
    obtain rfl := List.mem_singleton.mp hx
    have hlt := last.toNat_lt
    omega
  | case3 =>
    intro x hx
    cases hx

theorem length_littleWords (data : Bytes) : (littleWords data).length = (data.length + 1) / 2 := by
  fun_induction littleWords data with
  | case1 lo hi rest ih =>
    simp only [List.length_cons, ih]
    omega
  | case2 last => simp
  | case3 => simp

theorem sum_littleWords_lt (h : data.length ≤ 131074) : (littleWords data).sum < 2 ^ 32 := by
  have hsum := List.sum_le_card_nsmul (littleWords data) 0xFFFF (littleWords_le data)
  have hlen := length_littleWords data
  simp only [smul_eq_mul] at hsum
  omega

theorem sumWords_toNat (sum : BitVec 32) (data : Bytes) :
    (sumWords sum data).toNat = (sum.toNat + (littleWords data).sum) % 2 ^ 32 := by
  fun_induction sumWords sum data with
  | case1 sum lo hi rest ih =>
    rw [ih, BitVec.toNat_add, BitVec.toNat_setWidth_of_le (by decide), Nat.mod_add_mod, littleWords,
      List.sum_cons, Nat.add_assoc]
  | case2 sum last =>
    rw [littleWords, List.sum_singleton, BitVec.toNat_add, BitVec.toNat_setWidth_of_le (by decide)]
    rfl
  | case3 sum => exact (Nat.mod_eq_of_lt sum.isLt).symm

theorem foldCarries_toNat (sum : BitVec 32) :
    (foldCarries sum).toNat = wrapAround 0xFFFF sum.toNat := by
  fun_induction foldCarries sum with
  | case1 sum hsum => exact (wrapAround_of_le ((no_carry_iff sum).mp hsum)).symm
  | case2 sum hsum ih =>
    rw [ih, fold_toNat]
    exact wrapAround_fold sum.toNat

theorem sumWords_zero (data : Bytes) :
    (sumWords 0 data).toNat = (littleWords data).sum % 2 ^ 32 := by
  have hzero : (0 : BitVec 32).toNat + (littleWords data).sum = (littleWords data).sum :=
    Nat.zero_add _
  rw [sumWords_toNat, hzero]

theorem checksum_toNat (data : Bytes) :
    (netstackChecksum data).toNat =
      0xFFFF - wrapAround 0xFFFF ((littleWords data).sum % 2 ^ 32) := by
  have hfold := foldCarries_toNat (sumWords 0 data)
  have hle := wrapAround_le (m := 0xFFFF) (by decide) ((littleWords data).sum % 2 ^ 32)
  rw [sumWords_zero] at hfold
  rw [netstackChecksum, BitVec.toNat_setWidth, BitVec.toNat_not, hfold]
  omega

end Sum

section Verify

theorem littleWords_append (hpre : pre.length % 2 = 0) (post : Bytes) :
    littleWords (pre ++ post) = littleWords pre ++ littleWords post := by
  fun_induction littleWords pre with
  | case1 lo hi rest ih =>
    have hrest : rest.length % 2 = 0 := by
      simp only [List.length_cons] at hpre
      omega
    simp only [List.cons_append, littleWords, ih hrest]
  | case2 last => simp at hpre
  | case3 => rfl

theorem word_wordBytes (w : BitVec 16) : word ⟨w.setWidth 8⟩ ⟨(w >>> 8).setWidth 8⟩ = w := by
  refine BitVec.eq_of_getLsbD_eq fun i hi => ?_
  rw [word, BitVec.getLsbD_append]
  by_cases hlow : i < 8
  · simp [hlow]
  · have hbit : i - 8 < 8 := by omega
    have hback : 8 + (i - 8) = i := by omega
    simp [hlow, hbit, hback]

theorem littleWords_wordBytes (w : BitVec 16) (post : Bytes) :
    littleWords (wordBytes w ++ post) = w.toNat :: littleWords post := by
  simp only [wordBytes, List.cons_append, List.nil_append, littleWords, word_wordBytes]

theorem field_split {field : Bytes} (hfield : (data.drop offset).take 2 = field)
    (hlen : field.length = 2) :
    data = data.take offset ++ field ++ data.drop (offset + 2) ∧
      (data.take offset).length = offset := by
  have hdrop : (data.drop offset).drop 2 = data.drop (offset + 2) := List.drop_drop
  have hroom : offset + 2 ≤ data.length := by
    have hlength := congrArg List.length hfield
    rw [List.length_take, List.length_drop, hlen] at hlength
    omega
  refine ⟨?_, by rw [List.length_take]; omega⟩
  rw [← hfield, ← hdrop, List.append_assoc, List.take_append_drop, List.take_append_drop]

theorem splice_field {field : Bytes} (hlen : field.length = 2) :
    splice data offset field = data.take offset ++ field ++ data.drop (offset + 2) := by
  rw [splice, hlen]

theorem stored_sum (haligned : offset % 2 = 0) (hzero : (data.drop offset).take 2 = [0, 0])
    (w : BitVec 16) :
    (littleWords (splice data offset (wordBytes w))).sum = (littleWords data).sum + w.toNat := by
  obtain ⟨hsplit, hpre⟩ := field_split hzero rfl
  have hzeroWord : ([0, 0] : Bytes) = wordBytes 0 := rfl
  have heven : (data.take offset).length % 2 = 0 := by rw [hpre]; exact haligned
  rw [splice_field rfl]
  conv_rhs => rw [hsplit, hzeroWord]
  rw [List.append_assoc, List.append_assoc, littleWords_append heven, littleWords_append heven,
    littleWords_wordBytes, littleWords_wordBytes]
  simp only [List.sum_append, List.sum_cons]
  change _ = _ + (0 + _) + _
  omega

theorem checksum_verifies (haligned : offset % 2 = 0)
    (hzero : (data.drop offset).take 2 = [0, 0]) :
    netstackChecksum (splice data offset (wordBytes (netstackChecksum data))) = 0 := by
  have hstored := checksum_toNat (splice data offset (wordBytes (netstackChecksum data)))
  have hle : (littleWords data).sum % 2 ^ 32 ≤ 65537 * 0xFFFF :=
    Nat.le_of_lt_succ (Nat.mod_lt _ (by decide))
  -- 2 ^ 32 - 1 is a multiple of 0xFFFF, so the stored word brings no carry with it.
  have hkept : (littleWords data).sum % 2 ^ 32 +
      (0xFFFF - wrapAround 0xFFFF ((littleWords data).sum % 2 ^ 32)) < 2 ^ 32 :=
    Nat.lt_succ_of_le (add_complement_le (by decide) hle)
  rw [stored_sum haligned hzero, checksum_toNat data, ← Nat.mod_add_mod,
    Nat.mod_eq_of_lt hkept, wrapAround_complement (by decide)] at hstored
  exact BitVec.eq_of_toNat_eq hstored

end Verify

theorem checksum_of_packet (data : Bytes) :
    (data.length ≤ ipPacketSize →
      (littleWords data).sum < 2 ^ 32 ∧ (sumWords 0 data).toNat = (littleWords data).sum ∧
      netstackChecksum data = ~~~ BitVec.ofNat 16 (onesSum data)) ∧
    ∀ offset, data.length % 2 = 0 → offset % 2 = 0 → (data.drop offset).take 2 = [0, 0] →
      netstackChecksum (splice data offset (wordBytes (netstackChecksum data))) = 0 := by
  refine ⟨fun h => ?_, fun offset _ haligned hzero => checksum_verifies haligned hzero⟩
  have hlt : (littleWords data).sum < 2 ^ 32 := sum_littleWords_lt (h.trans (by decide))
  have hsum : onesSum data = wrapAround 0xFFFF (littleWords data).sum :=
    carrySum_eq (by decide) (littleWords_le data)
  have hle := wrapAround_le (m := 0xFFFF) (by decide) (littleWords data).sum
  refine ⟨hlt, (sumWords_zero data).trans (Nat.mod_eq_of_lt hlt), BitVec.eq_of_toNat_eq ?_⟩
  rw [checksum_toNat, Nat.mod_eq_of_lt hlt, BitVec.toNat_not, BitVec.toNat_ofNat, hsum,
    Nat.mod_eq_of_lt (by omega)]

def shortPacket : Bytes := [0x45, 0, 0, 20, 0, 0, 0xAC, 0x10]

theorem checksum_of_packet_short :
    netstackChecksum shortPacket = ~~~ BitVec.ofNat 16 (onesSum shortPacket) ∧
    netstackChecksum (splice shortPacket 4 (wordBytes (netstackChecksum shortPacket))) = 0 :=
  have h := checksum_of_packet shortPacket
  ⟨(h.1 (by decide)).2.2, h.2 4 (by decide) (by decide) (by decide)⟩

end ZoraVM.Kernel
