import ZoraVM.Network.Egress

namespace ZoraVM.Network

open Foundation
open Shell (isSpace)
open Unix (scanInt isDigit)

def dotSeparator : UInt8 := 46

inductive Sign where
  | unsigned | plus | minus
deriving DecidableEq, Repr

def Sign.text : Sign → Bytes
  | .unsigned => []
  | .plus => [43]
  | .minus => [45]

def signOf (text : Bytes) : Sign :=
  if text.head? = some 45 then .minus else if text.head? = some 43 then .plus else .unsigned

structure Numeral where
  spaces : Bytes
  sign : Sign
  digits : Bytes
  allSpaces : ∀ c ∈ spaces, isSpace c = true
  allDigits : ∀ c ∈ digits, isDigit c = true
  someDigit : digits ≠ []
deriving DecidableEq

def Numeral.text (n : Numeral) : Bytes := n.spaces ++ (n.sign.text ++ n.digits)

def Numeral.value (n : Numeral) : Int :=
  if n.sign = .minus then -(decimal n.digits : Int) else decimal n.digits

def scanNumeral (input : Bytes) : Option (Numeral × Bytes) :=
  let unspaced := input.dropWhile isSpace
  let digits := unspaced.drop (signOf unspaced).text.length
  if h : digits.takeWhile isDigit = [] then none
  else
    some (⟨input.takeWhile isSpace, signOf unspaced, digits.takeWhile isDigit,
      fun _ => List.mem_takeWhile_imp, fun _ => List.mem_takeWhile_imp, h⟩, digits.dropWhile isDigit)

def StartsOutside (p : UInt8 → Bool) (rest : Bytes) : Prop :=
  ∀ c, rest.head? = some c → p c = false

section Heads

variable {p : UInt8 → Bool} {taken rest : Bytes} {c : UInt8}

theorem startsOutside_cons : StartsOutside p (c :: rest) ↔ p c = false := by
  simp [StartsOutside]

theorem startsOutside_dropWhile (p : UInt8 → Bool) (text : Bytes) :
    StartsOutside p (text.dropWhile p) := by
  intro c hc
  have hhead := List.head?_dropWhile_not p text
  rw [hc] at hhead
  simpa using hhead

theorem split_outside (h : ∀ c ∈ taken, p c = true) (hrest : StartsOutside p rest) :
    (taken ++ rest).takeWhile p = taken ∧ (taken ++ rest).dropWhile p = rest := by
  rw [List.takeWhile_append_of_pos h, List.dropWhile_append_of_pos h]
  cases rest with
  | nil => exact ⟨List.append_nil taken, rfl⟩
  | cons c rest =>
    have hc := startsOutside_cons.mp hrest
    simp [hc]

theorem isSpace_of_isDigit (h : isDigit c = true) : isSpace c = false := by
  obtain ⟨hge, hle⟩ := isDigit_bounds h
  simp only [isSpace, Bool.or_eq_false_iff, beq_eq_false_iff_ne, Bool.and_eq_false_iff,
    decide_eq_false_iff_not]
  constructor
  · rintro rfl
    exact absurd hge (by decide)
  · exact .inr fun hsmall => absurd (UInt8.le_trans hge hsmall) (by decide)

end Heads

section Scanning

variable {input rest : Bytes} {n : Numeral}

@[simp] theorem Sign.text_unsigned : Sign.unsigned.text = [] := rfl
@[simp] theorem Sign.text_plus : Sign.plus.text = [43] := rfl
@[simp] theorem Sign.text_minus : Sign.minus.text = [45] := rfl

theorem sign_append (text : Bytes) :
    (signOf text).text ++ text.drop (signOf text).text.length = text := by
  rw [signOf]
  cases text with
  | nil => rfl
  | cons c text =>
    by_cases hminus : c = 45
    · simp [hminus]
    · by_cases hplus : c = 43
      · simp [hplus]
      · simp [hminus, hplus]

theorem digits_head (n : Numeral) (rest : Bytes) :
    ∃ d more, n.digits ++ rest = d :: more ∧ isDigit d = true := by
  obtain ⟨d, ds, hdigits⟩ := List.exists_cons_of_ne_nil n.someDigit
  exact ⟨d, ds ++ rest, by rw [hdigits, List.cons_append],
    n.allDigits d (hdigits ▸ List.mem_cons_self)⟩

theorem signed_head (n : Numeral) (rest : Bytes) :
    signOf (n.sign.text ++ (n.digits ++ rest)) = n.sign ∧
      StartsOutside isSpace (n.sign.text ++ (n.digits ++ rest)) := by
  cases hsign : n.sign with
  | plus => exact ⟨rfl, startsOutside_cons.mpr (by decide)⟩
  | minus => exact ⟨rfl, startsOutside_cons.mpr (by decide)⟩
  | unsigned =>
    obtain ⟨d, more, hmore, hd⟩ := digits_head n rest
    have hbounds := isDigit_bounds hd
    have hminus : d ≠ 45 := by
      rintro rfl
      exact absurd hbounds.1 (by decide)
    have hplus : d ≠ 43 := by
      rintro rfl
      exact absurd hbounds.1 (by decide)
    rw [Sign.text_unsigned, List.nil_append, hmore]
    exact ⟨by simp [signOf, hminus, hplus], startsOutside_cons.mpr (isSpace_of_isDigit hd)⟩

theorem scanNumeral_append (n : Numeral) (h : StartsOutside isDigit rest) :
    scanNumeral (n.text ++ rest) = some (n, rest) := by
  obtain ⟨hsign, hunspaced⟩ := signed_head n rest
  have htext : n.text ++ rest = n.spaces ++ (n.sign.text ++ (n.digits ++ rest)) := by
    simp [Numeral.text]
  obtain ⟨htake, hdrop⟩ := split_outside n.allSpaces hunspaced
  obtain ⟨hdigits, hrest⟩ := split_outside n.allDigits h
  simp only [scanNumeral, htext, htake, hdrop, hsign, List.drop_left, hdigits, hrest, n.someDigit,
    dif_neg, not_false_iff]

theorem scanNumeral_eq_some (h : scanNumeral input = some (n, rest)) :
    input = n.text ++ rest ∧ StartsOutside isDigit rest := by
  simp only [scanNumeral] at h
  split at h
  · cases h
  · obtain ⟨rfl, rfl⟩ := Prod.mk.inj (Option.some.inj h)
    refine ⟨?_, startsOutside_dropWhile _ _⟩
    rw [Numeral.text, List.append_assoc, List.append_assoc, List.takeWhile_append_dropWhile,
      sign_append, List.takeWhile_append_dropWhile]

theorem scanNumeral_iff : scanNumeral input = some (n, rest) ↔
    input = n.text ++ rest ∧ StartsOutside isDigit rest := by
  constructor
  · exact scanNumeral_eq_some
  · rintro ⟨rfl, hrest⟩
    exact scanNumeral_append n hrest

theorem sign_dropped (text : Bytes) : text.drop (signOf text).text.length =
    if text.head? = some 45 ∨ text.head? = some 43 then text.tail else text := by
  by_cases hminus : text.head? = some 45
  · simp [signOf, hminus]
  · by_cases hplus : text.head? = some 43
    · simp [signOf, hplus]
    · simp [signOf, hminus, hplus]

theorem signOf_minus_iff {text : Bytes} : signOf text = .minus ↔ text.head? = some 45 := by
  by_cases hminus : text.head? = some 45
  · simp [signOf, hminus]
  · by_cases hplus : text.head? = some 43
    · simp [signOf, hplus]
    · simp [signOf, hminus, hplus]

theorem drop_takeWhile (p : UInt8 → Bool) (text : Bytes) :
    text.drop (text.takeWhile p).length = text.dropWhile p := by
  conv_lhs => arg 2; rw [← List.takeWhile_append_dropWhile (p := p) (l := text)]
  exact List.drop_left

theorem scanInt_eq (input : Bytes) :
    scanInt input = (scanNumeral input).map fun p => (p.1.value, p.2) := by
  simp only [scanInt, scanNumeral, ← sign_dropped, drop_takeWhile]
  by_cases hnone : ((input.dropWhile isSpace).drop
      (signOf (input.dropWhile isSpace)).text.length).takeWhile isDigit = []
  · simp only [hnone, if_true, dif_pos, Option.map_none]
  · simp only [hnone, if_false, dif_neg, not_false_iff, Option.map_some, Numeral.value,
      signOf_minus_iff]
    rfl

end Scanning

section Decimal

variable {digits rest : Bytes} {n : Numeral} {k m v : Nat}

-- What "%d" prints of a number that is not negative.
def decimalText (v : Nat) : Bytes := str (toString v)

-- "%d"
def intText (n : Int) : Bytes := if n < 0 then 45 :: decimalText n.natAbs else decimalText n.toNat

-- "%4d" and the like
def padded (width : Nat) (text : Bytes) : Bytes := List.replicate (width - text.length) 32 ++ text

def plainNumeral (digits : Bytes) (hall : ∀ c ∈ digits, isDigit c = true) (hne : digits ≠ []) :
    Numeral :=
  ⟨[], .unsigned, digits, fun _ hc => absurd hc List.not_mem_nil, hall, hne⟩

@[simp] theorem plainNumeral_text (hall : ∀ c ∈ digits, isDigit c = true) (hne : digits ≠ []) :
    (plainNumeral digits hall hne).text = digits := rfl

@[simp] theorem plainNumeral_value (hall : ∀ c ∈ digits, isDigit c = true) (hne : digits ≠ []) :
    (plainNumeral digits hall hne).value = decimal digits := rfl

theorem scanNumeral_of_digits (hall : ∀ c ∈ digits, isDigit c = true)
    (h : scanNumeral digits = some (n, rest)) :
    rest = [] ∧ digits ≠ [] ∧ n.value = decimal digits := by
  have hne : digits ≠ [] := by
    rintro rfl
    have hnone : scanNumeral [] = none := by decide
    rw [hnone] at h
    cases h
  have hplain : scanNumeral digits = some (plainNumeral digits hall hne, []) :=
    scanNumeral_iff.mpr ⟨(List.append_nil digits).symm, by simp [StartsOutside]⟩
  obtain ⟨rfl, rfl⟩ := Prod.mk.inj (Option.some.inj (h.symm.trans hplain))
  exact ⟨rfl, hne, rfl⟩

theorem decimal_lt_pow (hall : ∀ c ∈ digits, isDigit c = true) :
    decimal digits < 10 ^ digits.length := by
  have hfold : ∀ start, digits.foldl (fun n c => 10 * n + (c.toNat - 48)) start <
      (start + 1) * 10 ^ digits.length := by
    induction digits with
    | nil => simp
    | cons c digits ih =>
      intro start
      have hdigit : c.toNat - 48 ≤ 9 := by
        have hle := UInt8.le_iff_toNat_le.mp (isDigit_bounds (hall c List.mem_cons_self)).2
        simp at hle
        omega
      have hnext : 10 * start + (c.toNat - 48) + 1 ≤ (start + 1) * 10 := by omega
      refine (ih (fun c hc => hall c (List.mem_cons_of_mem _ hc)) _).trans_le ?_
      rw [List.length_cons, pow_succ', ← mul_assoc]
      exact Nat.mul_le_mul_right _ hnext
  simpa [decimal] using hfold 0

theorem digit_byte {c : Char} (h : c.isDigit = true) :
    isDigit c.toNat.toUInt8 = true ∧ c.toNat.toUInt8.toNat = c.toNat := by
  obtain ⟨hge, hle⟩ : 48 ≤ c.toNat ∧ c.toNat ≤ 57 := Char.isDigit_iff_toNat.mp h
  have hnat : c.toNat.toUInt8.toNat = c.toNat := by
    rw [Nat.toUInt8_eq, UInt8.toNat_ofNat']
    omega
  refine ⟨?_, hnat⟩
  rw [isDigit, Bool.and_eq_true, decide_eq_true_iff, decide_eq_true_iff, UInt8.le_iff_toNat_le,
    UInt8.le_iff_toNat_le, hnat]
  exact ⟨hge, hle⟩

theorem decimalText_eq (v : Nat) :
    decimalText v = (Nat.toDigits 10 v).map fun c => c.toNat.toUInt8 := by
  rw [decimalText, str, Nat.toString_eq_repr, Nat.toList_repr]

theorem isDigit_of_mem_decimalText : ∀ c ∈ decimalText v, isDigit c = true := by
  intro c hc
  rw [decimalText_eq] at hc
  obtain ⟨d, hd, rfl⟩ := List.mem_map.mp hc
  exact (digit_byte (Nat.isDigit_of_mem_toDigits (by decide) (by decide) hd)).1

theorem decimalText_ne_nil (v : Nat) : decimalText v ≠ [] := by
  simp [decimalText_eq]

theorem length_decimalText_le_iff (h : 0 < k) : (decimalText v).length ≤ k ↔ v < 10 ^ k := by
  rw [decimalText_eq, List.length_map, Nat.length_toDigits_le_iff (by decide) h]

theorem decimal_decimalText (v : Nat) : decimal (decimalText v) = v := by
  have hchars : ∀ cs : List Char, (∀ c ∈ cs, c.isDigit = true) → ∀ start,
      (cs.map fun c => c.toNat.toUInt8).foldl (fun n c => 10 * n + (c.toNat - 48)) start =
        Nat.ofDigitChars 10 cs start := by
    intro cs
    induction cs with
    | nil => simp
    | cons c cs ih =>
      intro hall start
      rw [List.map_cons, List.foldl_cons, (digit_byte (hall c List.mem_cons_self)).2,
        ih fun c hc => hall c (List.mem_cons_of_mem _ hc), Nat.ofDigitChars_cons]
      rfl
  rw [decimal, decimalText_eq, hchars _ fun _ hc => Nat.isDigit_of_mem_toDigits (by decide)
    (by decide) hc, Nat.ofDigitChars_ten_toDigits]

theorem isDigit_of_mem_cut : ∀ c ∈ (decimalText v).take m, isDigit c = true :=
  fun c hc => isDigit_of_mem_decimalText c (List.mem_of_mem_take hc)

theorem decimal_take_lt (hm : m < (decimalText v).length) (hpos : 0 < m) :
    decimal ((decimalText v).take m) < v := by
  have hlen : ((decimalText v).take m).length = m := List.length_take_of_le hm.le
  have hpow : 10 ^ m ≤ v := Nat.le_of_not_lt fun hlt =>
    absurd ((length_decimalText_le_iff hpos).mpr hlt) (by omega)
  calc decimal ((decimalText v).take m)
      < 10 ^ ((decimalText v).take m).length := decimal_lt_pow isDigit_of_mem_cut
    _ = 10 ^ m := by rw [hlen]
    _ ≤ v := hpow

theorem scanNumeral_cut (hm : m < (decimalText v).length)
    (h : scanNumeral ((decimalText v).take m) = some (n, rest)) :
    ∃ cut : Nat, cut < v ∧ n.value = cut := by
  obtain ⟨-, hne, hvalue⟩ := scanNumeral_of_digits isDigit_of_mem_cut h
  have hpos : 0 < m := Nat.pos_of_ne_zero fun hzero => hne (by rw [hzero, List.take_zero])
  exact ⟨decimal ((decimalText v).take m), decimal_take_lt hm hpos, hvalue⟩

def numeralOf (v : Nat) : Numeral :=
  plainNumeral (decimalText v) isDigit_of_mem_decimalText (decimalText_ne_nil v)

@[simp] theorem numeralOf_value (v : Nat) : (numeralOf v).value = v := by
  rw [numeralOf, plainNumeral_value, decimal_decimalText]

theorem scanNumeral_decimalText (h : StartsOutside isDigit rest) :
    scanNumeral (decimalText v ++ rest) = some (numeralOf v, rest) :=
  scanNumeral_append (numeralOf v) h

theorem mem_intText {b : UInt8} {i : Int} (h : b ∈ intText i) : b = 45 ∨ isDigit b = true := by
  rw [intText] at h
  split at h
  · rcases List.mem_cons.mp h with rfl | h
    · exact .inl rfl
    · exact .inr (isDigit_of_mem_decimalText b h)
  · exact .inr (isDigit_of_mem_decimalText b h)

theorem length_intText_le {i : Int} (hlow : -2 ^ 31 ≤ i) (hhigh : i < 2 ^ 31) :
    (intText i).length ≤ 11 := by
  have hdigits : ∀ v : Nat, v ≤ 2 ^ 31 → (decimalText v).length ≤ 10 := fun v hv =>
    (length_decimalText_le_iff (by decide)).mpr (by omega)
  rw [intText]
  split
  · rw [List.length_cons]
    exact Nat.succ_le_succ (hdigits _ (by omega))
  · exact Nat.le_succ_of_le (hdigits _ (by omega))

theorem scanInt_intText (i : Int) (h : StartsOutside isDigit rest) :
    scanInt (intText i ++ rest) = some (i, rest) := by
  rw [scanInt_eq, intText]
  split
  · next hneg =>
    have hscan := scanNumeral_append
      ⟨[], .minus, decimalText i.natAbs, fun _ hc => absurd hc List.not_mem_nil,
        isDigit_of_mem_decimalText, decimalText_ne_nil _⟩ h
    simp only [Numeral.text, Sign.text_minus, List.nil_append, List.cons_append] at hscan
    rw [List.cons_append, hscan, Option.map_some, Numeral.value, if_pos rfl, decimal_decimalText]
    congr 2
    omega
  · next hpos =>
    rw [scanNumeral_decimalText h, Option.map_some, numeralOf_value]
    congr 2
    omega

end Decimal

end ZoraVM.Network
