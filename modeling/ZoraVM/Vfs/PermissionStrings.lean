import ZoraVM.Vfs.State

namespace ZoraVM.Vfs

open Foundation

-- The letter and the bit of each position, VFS_S_IRUSR first.
def permissionLetters : List (UInt8 × BitVec 32) :=
  [(114, 0o400), (119, 0o200), (120, 0o100), (114, 0o040), (119, 0o020), (120, 0o010),
    (114, 0o004), (119, 0o002), (120, 0o001)]

def vfsFormatPermissions (mode : BitVec 32) : Bytes :=
  permissionLetters.map fun p => if mode &&& p.2 ≠ 0 then p.1 else 45

-- perm_str[i] - '0', where a char is signed.
def digitOf (c : UInt8) : BitVec 32 := c.toBitVec.signExtend 32 - 48

def octalMode (owner group others : UInt8) : BitVec 32 :=
  digitOf owner <<< 6 ||| digitOf group <<< 3 ||| digitOf others

def symbolicMode (permStr : Bytes) : BitVec 32 :=
  (permStr.zip permissionLetters).foldl (fun mode x => if x.1 = x.2.1 then mode ||| x.2.2 else mode) 0

def isOctalDigit (c : UInt8) : Bool := 48 ≤ c && c ≤ 55

def vfsParsePermissions : Option Bytes → BitVec 32
  | none => defaultFilePerms
  | some permStr =>
    match permStr with
    | [owner, group, others] =>
      if isOctalDigit owner then octalMode owner group others else defaultFilePerms
    | _ => if permStr.length = 9 then symbolicMode permStr else defaultFilePerms

section Grammar

variable (permStr : Bytes)

def IsOctal : Prop := permStr.length = 3 ∧ ∀ c ∈ permStr, isOctalDigit c = true

def IsSymbolic : Prop :=
  permStr.length = 9 ∧ ∀ x ∈ permStr.zip permissionLetters, x.1 = x.2.1 ∨ x.1 = 45

instance : Decidable (IsOctal permStr) := inferInstanceAs (Decidable (_ ∧ _))

instance : Decidable (IsSymbolic permStr) := inferInstanceAs (Decidable (_ ∧ _))

def octalValue : Nat := permStr.foldl (fun n c => 8 * n + (c.toNat - 48)) 0

def symbolicValue : Nat :=
  ((permStr.zip permissionLetters).map fun x => if x.1 = x.2.1 then x.2.2.toNat else 0).sum

-- The meaning of a permission string: anything outside the grammar means 0644.
def permissionValue : Nat :=
  if IsOctal permStr then octalValue permStr
  else if IsSymbolic permStr then symbolicValue permStr
  else 0o644

def FollowsGrammar : Prop :=
  (vfsParsePermissions (some permStr)).toInt = permissionValue permStr ∧
    0 ≤ (vfsParsePermissions (some permStr)).toInt ∧
    (vfsParsePermissions (some permStr)).toInt ≤ 0o777

def octalLookalikes : List Bytes :=
  ["4D4", "6D4", "2T4", "6T4", "0d4", "2d4", "4d4", "6d4", "60T", "64T", "4@T", "6@T", "4DT", "6DT",
    "2PT", "6PT", "2TT", "6TT", "0`T", "2`T", "4`T", "6`T", "0dT", "2dT", "4dT", "6dT"].map str

def IsSymbolicLookalike : Prop :=
  permStr.length = 9 ∧
    ∀ x ∈ permStr.zip permissionLetters, x.1 = x.2.1 ↔ defaultFilePerms &&& x.2.2 ≠ 0

def IsLeftToDefault : Prop :=
  permStr.length ≠ 9 ∧ (permStr.length = 3 → ∀ c ∈ permStr.head?, isOctalDigit c = false)

end Grammar

variable {permStr : Bytes} {owner group others : UInt8}

section Octal

theorem of_every_byte {P : UInt8 → Prop} (h : ∀ k : Fin 256, P (UInt8.ofNat k.val)) (c : UInt8) :
    P c := by
  have hc := h ⟨c.toNat, c.toNat_lt⟩
  rwa [UInt8.ofNat_toNat] at hc

theorem octalDigit_cases (h : isOctalDigit owner = true) :
    ∃ k : Fin 8, owner = UInt8.ofNat (48 + k.val) := by
  have hbounds : 48 ≤ owner.toNat ∧ owner.toNat ≤ 55 := by
    simpa [isOctalDigit, UInt8.le_iff_toNat_le] using h
  refine ⟨⟨owner.toNat - 48, by omega⟩, ?_⟩
  rw [Nat.add_sub_cancel' hbounds.1, UInt8.ofNat_toNat]

theorem toInt_parts {x y z : Nat} (hx : x < 8) (hy : y < 8) (hz : z < 8) :
    (BitVec.ofNat 32 x <<< 6 ||| BitVec.ofNat 32 y <<< 3 ||| BitVec.ofNat 32 z).toInt =
      64 * x + 8 * y + z := by
  have hhigh : 64 * x ||| 8 * y = 64 * x + 8 * y :=
    (Nat.two_pow_add_eq_or_of_lt (i := 6) (by omega : 8 * y < 2 ^ 6) x).symm
  have hlow : 64 * x + 8 * y ||| z = 64 * x + 8 * y + z := by
    have hshift : 64 * x + 8 * y = 2 ^ 3 * (8 * x + y) := by omega
    rw [hshift]
    exact (Nat.two_pow_add_eq_or_of_lt hz (8 * x + y)).symm
  have hnat : (BitVec.ofNat 32 x <<< 6 ||| BitVec.ofNat 32 y <<< 3 ||| BitVec.ofNat 32 z).toNat =
      64 * x + 8 * y + z := by
    have hx' : x * 2 ^ 6 % 2 ^ 32 = 64 * x := by omega
    have hy' : y * 2 ^ 3 % 2 ^ 32 = 8 * y := by omega
    rw [BitVec.toNat_or, BitVec.toNat_or, BitVec.toNat_shiftLeft, BitVec.toNat_shiftLeft,
      BitVec.toNat_ofNat, BitVec.toNat_ofNat, BitVec.toNat_ofNat, Nat.mod_eq_of_lt (by omega : x < 2 ^ 32),
      Nat.mod_eq_of_lt (by omega : y < 2 ^ 32), Nat.mod_eq_of_lt (by omega : z < 2 ^ 32),
      Nat.shiftLeft_eq, Nat.shiftLeft_eq, hx', hy', hhigh, hlow]
  rw [BitVec.toInt_eq_toNat_of_lt (by omega), hnat]
  omega

theorem digitOf_digit : ∀ i : Fin 8, digitOf (UInt8.ofNat (48 + i.val)) = BitVec.ofNat 32 i.val := by
  decide

theorem octalMode_of_digits (i j k : Fin 8) :
    (octalMode (UInt8.ofNat (48 + i.val)) (UInt8.ofNat (48 + j.val))
      (UInt8.ofNat (48 + k.val))).toInt = 64 * i.val + 8 * j.val + k.val := by
  rw [octalMode, digitOf_digit, digitOf_digit, digitOf_digit, toInt_parts i.isLt j.isLt k.isLt]

theorem octalValue_of_digits (i j k : Fin 8) :
    octalValue [UInt8.ofNat (48 + i.val), UInt8.ofNat (48 + j.val), UInt8.ofNat (48 + k.val)] =
      64 * i.val + 8 * j.val + k.val := by
  have hdigit : ∀ d : Fin 8, (UInt8.ofNat (48 + d.val)).toNat - 48 = d.val := by decide
  simp only [octalValue, List.foldl_cons, List.foldl_nil, hdigit]
  omega

theorem isOctal_iff : IsOctal [owner, group, others] ↔
    isOctalDigit owner = true ∧ isOctalDigit group = true ∧ isOctalDigit others = true := by
  simp [IsOctal]

theorem parse_octal (h : IsOctal permStr) :
    (vfsParsePermissions (some permStr)).toInt = octalValue permStr ∧ octalValue permStr ≤ 0o777 := by
  obtain ⟨owner, group, others, rfl⟩ := List.length_eq_three.mp h.1
  obtain ⟨howner, hgroup, hothers⟩ := isOctal_iff.mp h
  have hparsed : vfsParsePermissions (some [owner, group, others]) = octalMode owner group others :=
    if_pos howner
  obtain ⟨i, rfl⟩ := octalDigit_cases howner
  obtain ⟨j, rfl⟩ := octalDigit_cases hgroup
  obtain ⟨k, rfl⟩ := octalDigit_cases hothers
  rw [hparsed, octalMode_of_digits, octalValue_of_digits]
  omega

theorem within_of_octalMode (h : octalMode owner group others = defaultFilePerms) :
    digitOf owner <<< 6 ||| defaultFilePerms = defaultFilePerms ∧
      digitOf group <<< 3 ||| defaultFilePerms = defaultFilePerms ∧
      digitOf others ||| defaultFilePerms = defaultFilePerms := by
  unfold octalMode at h
  refine ⟨?_, ?_, ?_⟩
  · rw [← h, ← BitVec.or_assoc, ← BitVec.or_assoc, BitVec.or_self]
  · rw [← h, BitVec.or_comm (digitOf owner <<< 6), BitVec.or_assoc, ← BitVec.or_assoc (digitOf group <<< 3),
      BitVec.or_self]
  · rw [← h, BitVec.or_comm, BitVec.or_assoc, BitVec.or_self]

theorem lookalikes_listed : ((str "0246").all fun owner => (str "04@DPT`d").all fun group =>
    (str "04PT").all fun others => octalMode owner group others != defaultFilePerms ||
      (isOctalDigit owner && isOctalDigit group && isOctalDigit others) ||
        octalLookalikes.contains [owner, group, others]) = true := by
  decide +kernel

theorem lookalike_cases (howner : owner ∈ str "0246") (hgroup : group ∈ str "04@DPT`d")
    (hothers : others ∈ str "04PT") (h : octalMode owner group others = defaultFilePerms) :
    IsOctal [owner, group, others] ∨ [owner, group, others] ∈ octalLookalikes := by
  have hlisted := List.all_eq_true.mp (List.all_eq_true.mp (List.all_eq_true.mp lookalikes_listed
    owner howner) group hgroup) others hothers
  simpa [h, isOctal_iff, and_assoc] using hlisted

theorem lookalike_parts :
    (∀ c, isOctalDigit c = true → digitOf c <<< 6 ||| defaultFilePerms = defaultFilePerms →
        c ∈ str "0246") ∧
      (∀ c, digitOf c <<< 3 ||| defaultFilePerms = defaultFilePerms → c ∈ str "04@DPT`d") ∧
      ∀ c, digitOf c ||| defaultFilePerms = defaultFilePerms → c ∈ str "04PT" :=
  ⟨of_every_byte (by decide +kernel), of_every_byte (by decide +kernel),
    of_every_byte (by decide +kernel)⟩

theorem lookalike_of_default (howner : isOctalDigit owner = true)
    (h : octalMode owner group others = defaultFilePerms) :
    IsOctal [owner, group, others] ∨ [owner, group, others] ∈ octalLookalikes := by
  obtain ⟨hfirst, hsecond, hthird⟩ := lookalike_parts
  obtain ⟨h₁, h₂, h₃⟩ := within_of_octalMode h
  exact lookalike_cases (hfirst owner howner h₁) (hsecond group h₂) (hthird others h₃) h

theorem parse_lookalike : ∀ permStr ∈ octalLookalikes, permStr.length = 3 ∧
    vfsParsePermissions (some permStr) = defaultFilePerms ∧ permissionValue permStr = 0o644 := by
  decide +kernel

end Octal

section Symbolic

def modeOf (marks : List Bool) : BitVec 32 :=
  (marks.zip permissionLetters).foldl (fun mode x => if x.1 then mode ||| x.2.2 else mode) 0

def marksOf (permStr : Bytes) : List Bool :=
  (permStr.zip permissionLetters).map fun x => decide (x.1 = x.2.1)

theorem length_nine {α : Type} {l : List α} (h : l.length = 9) :
    ∃ a b c d e f g i j, l = [a, b, c, d, e, f, g, i, j] := by
  match l, h with
  | [a, b, c, d, e, f, g, i, j], _ => exact ⟨a, b, c, d, e, f, g, i, j, rfl⟩

def valueOf (marks : List Bool) : Nat :=
  ((marks.zip permissionLetters).map fun x => if x.1 then x.2.2.toNat else 0).sum

theorem length_marksOf (h : permStr.length = 9) : (marksOf permStr).length = 9 := by
  simp [marksOf, h, permissionLetters]

theorem symbolicMode_eq (h : permStr.length = 9) :
    symbolicMode permStr = modeOf (marksOf permStr) := by
  obtain ⟨a, b, c, d, e, f, g, i, j, rfl⟩ := length_nine h
  simp [symbolicMode, modeOf, marksOf, permissionLetters]

theorem symbolicValue_eq (h : permStr.length = 9) :
    symbolicValue permStr = valueOf (marksOf permStr) := by
  obtain ⟨a, b, c, d, e, f, g, i, j, rfl⟩ := length_nine h
  simp [symbolicValue, valueOf, marksOf, permissionLetters]

def digitMarked (a b c : Bool) : Nat := 4 * a.toNat + 2 * b.toNat + c.toNat

theorem digitMarked_lt (a b c : Bool) : digitMarked a b c < 8 := by
  have ha := a.toNat_lt
  have hb := b.toNat_lt
  have hc := c.toNat_lt
  unfold digitMarked
  omega

variable (a b c d e f g i j : Bool)

theorem modeOf_parts : modeOf [a, b, c, d, e, f, g, i, j] =
    BitVec.ofNat 32 (digitMarked a b c) <<< 6 ||| BitVec.ofNat 32 (digitMarked d e f) <<< 3 |||
      BitVec.ofNat 32 (digitMarked g i j) := by
  have hstep : ∀ (mode bit : BitVec 32) (x : Bool),
      (if x then mode ||| bit else mode) = mode ||| (if x then bit else 0) := by
    rintro mode bit (_ | _) <;> simp
  have howner : BitVec.ofNat 32 (digitMarked a b c) <<< 6 =
      (if a then 0o400 else 0) ||| ((if b then 0o200 else 0) ||| (if c then 0o100 else 0)) := by
    revert a b c
    decide
  have hgroup : BitVec.ofNat 32 (digitMarked d e f) <<< 3 =
      (if d then 0o040 else 0) ||| ((if e then 0o020 else 0) ||| (if f then 0o010 else 0)) := by
    revert d e f
    decide
  have hothers : BitVec.ofNat 32 (digitMarked g i j) =
      (if g then 0o004 else 0) ||| ((if i then 0o002 else 0) ||| (if j then 0o001 else 0)) := by
    revert g i j
    decide
  rw [howner, hgroup, hothers]
  simp only [modeOf, permissionLetters, List.zip_cons_cons, List.zip_nil_left, List.foldl_cons,
    List.foldl_nil, hstep, BitVec.or_assoc]
  exact BitVec.zero_or

theorem valueOf_parts : valueOf [a, b, c, d, e, f, g, i, j] =
    64 * digitMarked a b c + 8 * digitMarked d e f + digitMarked g i j := by
  have hplace : ∀ (x : Bool) (n : Nat), (if x then n else 0) = n * x.toNat := by
    rintro (_ | _) n <;> simp
  simp only [valueOf, permissionLetters, List.zip_cons_cons, List.zip_nil_left, List.map_cons,
    List.map_nil, List.sum_cons, List.sum_nil, hplace]
  change 256 * a.toNat + (128 * b.toNat + (64 * c.toNat + (32 * d.toNat + (16 * e.toNat +
    (8 * f.toNat + (4 * g.toNat + (2 * i.toNat + (1 * j.toNat + 0)))))))) = _
  unfold digitMarked
  omega

theorem modeOf_exact : (modeOf [a, b, c, d, e, f, g, i, j]).toInt =
    valueOf [a, b, c, d, e, f, g, i, j] ∧ valueOf [a, b, c, d, e, f, g, i, j] ≤ 0o777 := by
  have howner := digitMarked_lt a b c
  have hgroup := digitMarked_lt d e f
  have hothers := digitMarked_lt g i j
  rw [modeOf_parts, valueOf_parts, toInt_parts howner hgroup hothers]
  omega

theorem modeOf_eq_default (h : modeOf [a, b, c, d, e, f, g, i, j] = defaultFilePerms) :
    [a, b, c, d, e, f, g, i, j] = permissionLetters.map fun p => defaultFilePerms &&& p.2 != 0 := by
  have howner := digitMarked_lt a b c
  have hgroup := digitMarked_lt d e f
  have hothers := digitMarked_lt g i j
  have hvalue : (modeOf [a, b, c, d, e, f, g, i, j]).toInt = 420 := by
    rw [h]
    rfl
  rw [modeOf_parts, toInt_parts howner hgroup hothers] at hvalue
  have hsix : ∀ x y z, digitMarked x y z = 6 → x = true ∧ y = true ∧ z = false := by decide
  have hfour : ∀ x y z, digitMarked x y z = 4 → x = true ∧ y = false ∧ z = false := by decide
  obtain ⟨rfl, rfl, rfl⟩ := hsix a b c (by omega)
  obtain ⟨rfl, rfl, rfl⟩ := hfour d e f (by omega)
  obtain ⟨rfl, rfl, rfl⟩ := hfour g i j (by omega)
  decide

theorem symbolicMode_exact (h : permStr.length = 9) :
    (symbolicMode permStr).toInt = symbolicValue permStr ∧ symbolicValue permStr ≤ 0o777 := by
  obtain ⟨a, b, c, d, e, f, g, i, j, hmarks⟩ := length_nine (length_marksOf h)
  rw [symbolicMode_eq h, symbolicValue_eq h, hmarks]
  exact modeOf_exact a b c d e f g i j

theorem marks_default_iff (h : permStr.length = 9) :
    (marksOf permStr = permissionLetters.map fun p => defaultFilePerms &&& p.2 != 0) ↔
      IsSymbolicLookalike permStr := by
  obtain ⟨a, b, c, d, e, f, g, i, j, rfl⟩ := length_nine h
  simp [IsSymbolicLookalike, marksOf, permissionLetters, defaultFilePerms]

theorem symbolicMode_eq_default_iff (h : permStr.length = 9) :
    symbolicMode permStr = defaultFilePerms ↔ IsSymbolicLookalike permStr := by
  rw [symbolicMode_eq h, ← marks_default_iff h]
  constructor
  · obtain ⟨a, b, c, d, e, f, g, i, j, hmarks⟩ := length_nine (length_marksOf h)
    rw [hmarks]
    exact modeOf_eq_default a b c d e f g i j
  · intro hmarks
    rw [hmarks]
    rfl

theorem or_bit (acc mode : BitVec 32) {i : Nat} (hi : i < 32) :
    (if mode &&& BitVec.twoPow 32 i ≠ 0 then acc ||| BitVec.twoPow 32 i else acc) =
      acc ||| (mode &&& BitVec.twoPow 32 i) := by
  rw [BitVec.and_twoPow]
  cases mode.getLsbD i with
  | false => simp
  | true =>
    have hset : BitVec.twoPow 32 i ≠ 0 := by
      intro hzero
      have hbit := congrArg (fun b => b.getLsbD i) hzero
      simp [hi] at hbit
    rw [if_pos rfl, if_pos hset]

theorem foldl_format (mode acc : BitVec 32) {letters : List (UInt8 × BitVec 32)}
    (hletters : ∀ p ∈ letters, p.1 ≠ 45 ∧ ∃ i < 32, p.2 = BitVec.twoPow 32 i) :
    ((letters.map fun p => if mode &&& p.2 ≠ 0 then p.1 else 45).zip letters).foldl
      (fun mode x => if x.1 = x.2.1 then mode ||| x.2.2 else mode) acc =
        acc ||| (mode &&& (letters.map Prod.snd).foldr (· ||| ·) 0) := by
  induction letters generalizing acc with
  | nil => simp
  | cons p rest ih =>
    obtain ⟨hletter, i, hi, hbit⟩ := hletters p List.mem_cons_self
    have hhead : (if (if mode &&& p.2 ≠ 0 then p.1 else 45) = p.1 then acc ||| p.2 else acc) =
        acc ||| (mode &&& p.2) := by
      rw [hbit, ← or_bit acc mode hi]
      split
      · rw [if_pos rfl]
      · rw [if_neg hletter.symm]
    rw [List.map_cons, List.zip_cons_cons, List.foldl_cons, hhead,
      ih _ fun q hq => hletters q (List.mem_cons_of_mem p hq), List.map_cons, List.foldr_cons,
      BitVec.or_assoc, BitVec.and_or_distrib_left]

theorem permissionLetters_bits :
    ∀ p ∈ permissionLetters, p.1 ≠ 45 ∧ ∃ i < 32, p.2 = BitVec.twoPow 32 i := by
  have hlisted : permissionLetters =
      (str "rwxrwxrwx").zip ((List.range 9).reverse.map (BitVec.twoPow 32)) := by decide +kernel
  have hdash : (45 : UInt8) ∉ str "rwxrwxrwx" := by decide +kernel
  rintro ⟨letter, bit⟩ hp
  rw [hlisted] at hp
  obtain ⟨hletter, hbit⟩ := List.of_mem_zip hp
  obtain ⟨i, hi, rfl⟩ := List.mem_map.mp hbit
  rw [List.mem_reverse, List.mem_range] at hi
  refine ⟨fun heq => hdash (heq ▸ hletter), i, by omega, rfl⟩

theorem parse_format (mode : BitVec 32) :
    vfsParsePermissions (some (vfsFormatPermissions mode)) = mode &&& 0o777 := by
  have hfold := foldl_format mode 0 permissionLetters_bits
  exact hfold.trans (BitVec.zero_or)

end Symbolic

section Results

def HandledRight (permStr : Bytes) : Prop :=
  IsOctal permStr ∨ IsSymbolic permStr ∨ IsLeftToDefault permStr ∨ permStr ∈ octalLookalikes ∨
    IsSymbolicLookalike permStr

theorem permissionValue_le (permStr : Bytes) : permissionValue permStr ≤ 0o777 := by
  unfold permissionValue
  split
  · next h => exact (parse_octal h).2
  · split
    · next h => exact (symbolicMode_exact h.1).2
    · decide

theorem followsGrammar_iff : FollowsGrammar permStr ↔
    (vfsParsePermissions (some permStr)).toInt = permissionValue permStr := by
  have hle := permissionValue_le permStr
  constructor
  · exact fun h => h.1
  · intro h
    exact ⟨h, by omega, by omega⟩

theorem parse_of_length_ne_three (h : permStr.length ≠ 3) :
    vfsParsePermissions (some permStr) =
      if permStr.length = 9 then symbolicMode permStr else defaultFilePerms := by
  match permStr, h with
  | [], _ => rfl
  | [_], _ => rfl
  | [_, _], _ => rfl
  | _ :: _ :: _ :: _ :: _, _ => rfl

theorem parse_cases (permStr : Bytes) :
    (∃ owner group others, permStr = [owner, group, others] ∧ isOctalDigit owner = true ∧
        vfsParsePermissions (some permStr) = octalMode owner group others) ∨
      (permStr.length = 9 ∧ vfsParsePermissions (some permStr) = symbolicMode permStr) ∨
      (IsLeftToDefault permStr ∧ vfsParsePermissions (some permStr) = defaultFilePerms) := by
  rcases eq_or_ne permStr.length 3 with hthree | hthree
  · obtain ⟨owner, group, others, rfl⟩ := List.length_eq_three.mp hthree
    cases howner : isOctalDigit owner with
    | true => exact .inl ⟨owner, group, others, rfl, howner, if_pos howner⟩
    | false =>
      refine .inr (.inr ⟨⟨by simp, fun _ c hc => ?_⟩, if_neg (by simp [howner])⟩)
      rw [← Option.some.inj hc]
      exact howner
  · have hparsed := parse_of_length_ne_three hthree
    rcases eq_or_ne permStr.length 9 with hnine | hnine
    · exact .inr (.inl ⟨hnine, hparsed.trans (if_pos hnine)⟩)
    · exact .inr (.inr ⟨⟨hnine, fun h => absurd h hthree⟩, hparsed.trans (if_neg hnine)⟩)

theorem IsOctal.not_left (h : IsOctal permStr) : ¬ IsLeftToDefault permStr := by
  obtain ⟨owner, group, others, rfl⟩ := List.length_eq_three.mp h.1
  intro hleft
  have hrefused := hleft.2 rfl owner rfl
  rw [(isOctal_iff.mp h).1] at hrefused
  cases hrefused

theorem toInt_eq_default {mode : BitVec 32} : mode.toInt = (0o644 : Nat) ↔ mode = defaultFilePerms :=
  ⟨fun h => BitVec.eq_of_toInt_eq h, fun h => h ▸ rfl⟩

theorem octal_follows_iff (howner : isOctalDigit owner = true)
    (hparsed : vfsParsePermissions (some [owner, group, others]) = octalMode owner group others) :
    (vfsParsePermissions (some [owner, group, others])).toInt =
        permissionValue [owner, group, others] ↔ HandledRight [owner, group, others] := by
  by_cases hoctal : IsOctal [owner, group, others]
  · rw [permissionValue, if_pos hoctal]
    exact ⟨fun _ => .inl hoctal, fun _ => (parse_octal hoctal).1⟩
  · have hsym : ¬ IsSymbolic [owner, group, others] := fun h => absurd h.1 (by simp)
    rw [permissionValue, if_neg hoctal, if_neg hsym, toInt_eq_default]
    constructor
    · intro h
      rw [hparsed] at h
      rcases lookalike_of_default howner h with hin | hin
      · exact absurd hin hoctal
      · exact .inr (.inr (.inr (.inl hin)))
    · rintro (h | h | h | h | h)
      · exact absurd h hoctal
      · exact absurd h hsym
      · have hrefused := h.2 rfl owner rfl
        rw [howner] at hrefused
        cases hrefused
      · exact (parse_lookalike _ h).2.1
      · exact absurd h.1 (by simp)

theorem symbolic_follows_iff (hnine : permStr.length = 9)
    (hparsed : vfsParsePermissions (some permStr) = symbolicMode permStr) :
    (vfsParsePermissions (some permStr)).toInt = permissionValue permStr ↔ HandledRight permStr := by
  have hoctal : ¬ IsOctal permStr := fun h => by
    rw [h.1] at hnine
    cases hnine
  by_cases hsym : IsSymbolic permStr
  · rw [permissionValue, if_neg hoctal, if_pos hsym, hparsed]
    exact ⟨fun _ => .inr (.inl hsym), fun _ => (symbolicMode_exact hnine).1⟩
  · rw [permissionValue, if_neg hoctal, if_neg hsym, toInt_eq_default, hparsed,
      symbolicMode_eq_default_iff hnine]
    constructor
    · exact fun h => .inr (.inr (.inr (.inr h)))
    · rintro (h | h | h | h | h)
      · exact absurd h hoctal
      · exact absurd h hsym
      · exact absurd hnine h.1
      · rw [(parse_lookalike _ h).1] at hnine
        cases hnine
      · exact h

theorem parse_permissions_iff (permStr : Bytes) : FollowsGrammar permStr ↔ HandledRight permStr := by
  rw [followsGrammar_iff]
  rcases parse_cases permStr with ⟨owner, group, others, rfl, howner, hparsed⟩ | ⟨hnine, hparsed⟩ | h
  · exact octal_follows_iff howner hparsed
  · exact symbolic_follows_iff hnine hparsed
  · obtain ⟨hleft, hparsed⟩ := h
    have hoctal : ¬ IsOctal permStr := fun h => h.not_left hleft
    have hsym : ¬ IsSymbolic permStr := fun h => hleft.1 h.1
    rw [permissionValue, if_neg hoctal, if_neg hsym, toInt_eq_default]
    exact ⟨fun _ => .inr (.inr (.inl hleft)), fun _ => hparsed⟩

theorem malformed_string_accepted : ¬ ∀ permStr, FollowsGrammar permStr := by
  intro hall
  have hbound := (hall (str "7zz")).2.2
  exact absurd hbound (by decide +kernel)

end Results

end ZoraVM.Vfs
