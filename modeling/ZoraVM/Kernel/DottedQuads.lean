import ZoraVM.Foundation.Words
import ZoraVM.Network.Numerals

namespace ZoraVM.Kernel

open Foundation
open Network
open Shell (scanLiteral scanLiteral_some)
open Unix (scanInt isDigit)

section Source

abbrev IPv4Address := Vector (BitVec 8) 4

-- "%d.%d.%d.%d"
def scanQuad (str : Bytes) : Option (Int × Int × Int × Int) := do
  let (a, rest) ← scanInt str
  let rest ← scanLiteral dotSeparator rest
  let (b, rest) ← scanInt rest
  let rest ← scanLiteral dotSeparator rest
  let (c, rest) ← scanInt rest
  let rest ← scanLiteral dotSeparator rest
  let (d, _) ← scanInt rest
  some (a, b, c, d)

-- `convert` is the int that "%d" stores for a number.
variable (convert : Int → Int)

def netstackParseIpv4 (str : Bytes) (addr : IPv4Address) : Int × IPv4Address :=
  match scanQuad str with
  | none => (-1, addr)
  | some (a, b, c, d) =>
    if convert a < 0 ∨ convert a > 255 ∨ convert b < 0 ∨ convert b > 255 ∨
        convert c < 0 ∨ convert c > 255 ∨ convert d < 0 ∨ convert d > 255 then
      (-1, addr)
    else
      (0, #v[BitVec.ofInt 8 (convert a), BitVec.ofInt 8 (convert b), BitVec.ofInt 8 (convert c),
        BitVec.ofInt 8 (convert d)])

-- Only a number that an int has room for is stored as it is; the rest C leaves undefined.
def IntConversion : Prop := ∀ n : Int, -2 ^ 31 ≤ n → n < 2 ^ 31 → convert n = n

def quadText (addr : IPv4Address) : Bytes :=
  decimalText addr[0].toNat ++ dotSeparator :: (decimalText addr[1].toNat ++ dotSeparator ::
    (decimalText addr[2].toNat ++ dotSeparator :: decimalText addr[3].toNat))

-- snprintf writes nothing where there is no room, not even the terminator.
def netstackFormatIpv4 (addr : IPv4Address) (str : Bytes) (size : BitVec 32) : Bytes :=
  if size = 0 then str else clip size.toNat (quadText addr)

end Source

section Grammar

structure IsOctet (word : Bytes) : Prop where
  someDigit : word ≠ []
  allDigits : ∀ c ∈ word, isDigit c = true
  inRange : decimal word ≤ 255

def DottedQuad (str : Bytes) (addr : IPv4Address) : Prop :=
  ∃ words : List Bytes, words.length = 4 ∧ (∀ word ∈ words, IsOctet word) ∧
    str = [dotSeparator].intercalate words ∧
    addr.toList = words.map fun word => BitVec.ofNat 8 (decimal word)

structure ParsesQuads (convert : Int → Int) (str : Bytes) : Prop where
  accepts : ∀ old, (netstackParseIpv4 convert str old).1 = 0 ↔ ∃ addr, DottedQuad str addr
  stores : ∀ old addr, DottedQuad str addr → (netstackParseIpv4 convert str old).2 = addr
  keeps : ∀ old, (netstackParseIpv4 convert str old).1 = -1 →
    (netstackParseIpv4 convert str old).2 = old

def ReadsBack (convert : Int → Int) (addr : IPv4Address) (size : BitVec 32) : Prop :=
  ∀ str old, netstackParseIpv4 convert (netstackFormatIpv4 addr str size) old = (0, addr)

def dotted (ns : List Numeral) : Bytes := [dotSeparator].intercalate (ns.map Numeral.text)

def InRange (convert : Int → Int) (n : Numeral) : Prop :=
  0 ≤ convert n.value ∧ convert n.value ≤ 255

structure Plain (n : Numeral) : Prop where
  noSpaces : n.spaces = []
  noSign : n.sign = .unsigned
  inRange : decimal n.digits ≤ 255

def NothingExtra (convert : Int → Int) (str : Bytes) : Prop :=
  ∀ ns rest, ns.length = 4 → str = dotted ns ++ rest → StartsOutside isDigit rest →
    (∀ n ∈ ns, InRange convert n) → rest = [] ∧ ∀ n ∈ ns, Plain n

end Grammar

section Scanning

variable {convert : Int → Int} {str rest : Bytes} {k : Nat} {ns : List Numeral} {n : Numeral}
  {words : List Bytes} {addr old : IPv4Address}

def scanDotted : Nat → Bytes → Option (List Numeral × Bytes)
  | 0, str => (scanNumeral str).map fun p => ([p.1], p.2)
  | k + 1, str => do
    let (n, rest) ← scanNumeral str
    let rest ← scanLiteral dotSeparator rest
    let (ns, rest) ← scanDotted k rest
    some (n :: ns, rest)

theorem scanLiteral_cons (c : UInt8) (rest : Bytes) : scanLiteral c (c :: rest) = some rest := by
  rw [scanLiteral, if_pos rfl]

theorem dotted_cons (hne : ns ≠ []) : dotted (n :: ns) = n.text ++ dotSeparator :: dotted ns := by
  obtain ⟨m, ms, rfl⟩ := List.exists_cons_of_ne_nil hne
  simp [dotted, List.intercalate_cons_cons]

theorem dotSeparator_outside (rest : Bytes) : StartsOutside isDigit (dotSeparator :: rest) :=
  startsOutside_cons.mpr (by decide)

theorem scanDotted_eq_some (h : scanDotted k str = some (ns, rest)) :
    ns.length = k + 1 ∧ str = dotted ns ++ rest ∧ StartsOutside isDigit rest := by
  induction k generalizing str ns with
  | zero =>
    obtain ⟨⟨n, after⟩, hn, hsame⟩ := Option.map_eq_some_iff.mp h
    obtain ⟨rfl, rfl⟩ := Prod.mk.inj hsame
    obtain ⟨hstr, hrest⟩ := scanNumeral_iff.mp hn
    exact ⟨rfl, by rw [hstr, dotted, List.map_singleton, List.intercalate_singleton], hrest⟩
  | succ k ih =>
    obtain ⟨⟨n, afterNumber⟩, hn, h⟩ := Option.bind_eq_some_iff.mp h
    obtain ⟨afterDot, hdot, h⟩ := Option.bind_eq_some_iff.mp h
    obtain ⟨⟨more, after⟩, hmore, h⟩ := Option.bind_eq_some_iff.mp h
    obtain ⟨rfl, rfl⟩ := Prod.mk.inj (Option.some.inj h)
    obtain ⟨hlen, hstr, hrest⟩ := ih hmore
    have hne : more ≠ [] := List.ne_nil_of_length_eq_add_one hlen
    refine ⟨by rw [List.length_cons, hlen], ?_, hrest⟩
    rw [(scanNumeral_iff.mp hn).1, scanLiteral_some hdot, hstr, dotted_cons hne, List.append_assoc,
      List.cons_append]

theorem scanDotted_dotted (hlen : ns.length = k + 1) (hrest : StartsOutside isDigit rest) :
    scanDotted k (dotted ns ++ rest) = some (ns, rest) := by
  induction k generalizing ns with
  | zero =>
    obtain ⟨n, rfl⟩ := List.length_eq_one_iff.mp hlen
    rw [dotted, List.map_singleton, List.intercalate_singleton, scanDotted,
      scanNumeral_append n hrest]
    rfl
  | succ k ih =>
    obtain ⟨n, more, rfl⟩ := List.exists_cons_of_length_eq_add_one hlen
    have hmore : more.length = k + 1 := by simpa using hlen
    have hne : more ≠ [] := List.ne_nil_of_length_eq_add_one hmore
    rw [dotted_cons hne, List.append_assoc, List.cons_append, scanDotted,
      scanNumeral_append n (dotSeparator_outside _)]
    simp only [Option.bind_eq_bind, Option.bind_some, scanLiteral_cons, ih hmore]

theorem scanDotted_iff : scanDotted k str = some (ns, rest) ↔
    ns.length = k + 1 ∧ str = dotted ns ++ rest ∧ StartsOutside isDigit rest := by
  constructor
  · exact scanDotted_eq_some
  · rintro ⟨hlen, rfl, hrest⟩
    exact scanDotted_dotted hlen hrest

theorem scanQuad_eq (str : Bytes) :
    (scanQuad str).map (fun q => [q.1, q.2.1, q.2.2.1, q.2.2.2]) =
      (scanDotted 3 str).map fun p => p.1.map Numeral.value := by
  simp only [scanQuad, scanDotted, scanInt_eq, Option.bind_eq_bind, Option.map_bind, Option.bind_map,
    Option.bind_assoc, Option.bind_some, Function.comp_def, Option.map_some, List.map_cons,
    List.map_nil]

end Scanning

section Parsing

variable {convert : Int → Int} {str rest : Bytes} {ns : List Numeral} {n : Numeral}
  {words : List Bytes} {addr old : IPv4Address}

def octets (convert : Int → Int) (ns : List Numeral) : List (BitVec 8) :=
  ns.map fun n => BitVec.ofInt 8 (convert n.value)

theorem forall_quad {p : Int → Prop} {a b c d : Int} :
    (∀ v ∈ [a, b, c, d], p v) ↔ p a ∧ p b ∧ p c ∧ p d := by
  simp

theorem parse_accepts {a b c d : Int} (hquad : scanQuad str = some (a, b, c, d))
    (hin : ∀ v ∈ [a, b, c, d], 0 ≤ convert v ∧ convert v ≤ 255) :
    netstackParseIpv4 convert str old =
      (0, #v[BitVec.ofInt 8 (convert a), BitVec.ofInt 8 (convert b), BitVec.ofInt 8 (convert c),
        BitVec.ofInt 8 (convert d)]) := by
  have hall := forall_quad.mp hin
  rw [netstackParseIpv4, hquad]
  exact if_neg (by omega)

theorem parse_refuses {a b c d : Int} (hquad : scanQuad str = some (a, b, c, d))
    (hout : ¬ ∀ v ∈ [a, b, c, d], 0 ≤ convert v ∧ convert v ≤ 255) :
    netstackParseIpv4 convert str old = (-1, old) := by
  have hsome := mt forall_quad.mpr hout
  rw [netstackParseIpv4, hquad]
  exact if_pos (by omega)

theorem parse_cases (convert : Int → Int) (str : Bytes) :
    (∃ ns rest, scanDotted 3 str = some (ns, rest) ∧ (∀ n ∈ ns, InRange convert n) ∧
      ∃ addr : IPv4Address, addr.toList = octets convert ns ∧
        ∀ old, netstackParseIpv4 convert str old = (0, addr)) ∨
    ((∀ ns rest, scanDotted 3 str = some (ns, rest) → ¬ ∀ n ∈ ns, InRange convert n) ∧
      ∀ old, netstackParseIpv4 convert str old = (-1, old)) := by
  have hsame := scanQuad_eq str
  cases hquad : scanQuad str with
  | none =>
    rw [hquad, Option.map_none, eq_comm, Option.map_eq_none_iff] at hsame
    refine .inr ⟨fun ns rest h => ?_, fun old => by rw [netstackParseIpv4, hquad]⟩
    rw [hsame] at h
    cases h
  | some q =>
    obtain ⟨a, b, c, d⟩ := q
    rw [hquad, Option.map_some, eq_comm, Option.map_eq_some_iff] at hsame
    obtain ⟨⟨ns, rest⟩, hscan, hvalues⟩ := hsame
    have hoctets : octets convert ns = [a, b, c, d].map fun v => BitVec.ofInt 8 (convert v) := by
      rw [← hvalues, List.map_map]
      rfl
    have hrange : (∀ n ∈ ns, InRange convert n) ↔
        ∀ v ∈ [a, b, c, d], 0 ≤ convert v ∧ convert v ≤ 255 := by
      rw [← hvalues, List.forall_mem_map]
      rfl
    by_cases hin : ∀ n ∈ ns, InRange convert n
    · refine .inl ⟨ns, rest, hscan, hin, _, ?_, fun old => parse_accepts hquad (hrange.mp hin)⟩
      rw [hoctets]
      rfl
    · refine .inr ⟨fun ns' rest' h => ?_, fun old => parse_refuses hquad (mt hrange.mpr hin)⟩
      obtain ⟨rfl, rfl⟩ := Prod.mk.inj (Option.some.inj (hscan.symm.trans h))
      exact hin

theorem plain_text (h : Plain n) : n.text = n.digits ∧ n.value = decimal n.digits := by
  rw [Numeral.text, Numeral.value, h.noSpaces, h.noSign]
  exact ⟨rfl, rfl⟩

theorem plain_isOctet (h : Plain n) : IsOctet n.text :=
  (plain_text h).1 ▸ ⟨n.someDigit, n.allDigits, h.inRange⟩

theorem plain_convert (hconvert : IntConversion convert) (h : Plain n) :
    convert n.value = decimal n.digits := by
  have hle := h.inRange
  rw [(plain_text h).2]
  exact hconvert _ (by omega) (by omega)

theorem plain_inRange (hconvert : IntConversion convert) (h : Plain n) : InRange convert n := by
  have hle := h.inRange
  rw [InRange, plain_convert hconvert h]
  omega

theorem exists_numerals (h : ∀ word ∈ words, IsOctet word) :
    ∃ ns : List Numeral, ns.map Numeral.text = words ∧ ∀ n ∈ ns, Plain n := by
  induction words with
  | nil => exact ⟨[], rfl, by simp⟩
  | cons word words ih =>
    obtain ⟨ns, htexts, hplain⟩ := ih fun word hword => h word (List.mem_cons_of_mem _ hword)
    obtain ⟨hne, hall, hle⟩ := h word List.mem_cons_self
    refine ⟨plainNumeral word hall hne :: ns, by rw [List.map_cons, htexts, plainNumeral_text], ?_⟩
    exact List.forall_mem_cons.mpr ⟨⟨rfl, rfl, hle⟩, hplain⟩

theorem octets_of_plain (hconvert : IntConversion convert) (h : ∀ n ∈ ns, Plain n) :
    octets convert ns =
      (ns.map Numeral.text).map fun word => BitVec.ofNat 8 (decimal word) := by
  rw [octets, List.map_map]
  refine List.map_congr_left fun n hn => ?_
  rw [plain_convert hconvert (h n hn), BitVec.ofInt_natCast, Function.comp_apply,
    (plain_text (h n hn)).1]

theorem dottedQuad_iff (hconvert : IntConversion convert) : DottedQuad str addr ↔
    ∃ ns, scanDotted 3 str = some (ns, []) ∧ (∀ n ∈ ns, Plain n) ∧
      addr.toList = octets convert ns := by
  constructor
  · rintro ⟨words, hlen, hoctets, rfl, haddr⟩
    obtain ⟨ns, rfl, hplain⟩ := exists_numerals hoctets
    refine ⟨ns, scanDotted_iff.mpr ⟨?_, ?_, ?_⟩, hplain, ?_⟩
    · rwa [List.length_map] at hlen
    · rw [dotted, List.append_nil]
    · simp [StartsOutside]
    · rw [haddr, octets_of_plain hconvert hplain]
  · rintro ⟨ns, hscan, hplain, haddr⟩
    obtain ⟨hlen, hstr, -⟩ := scanDotted_iff.mp hscan
    refine ⟨ns.map Numeral.text, by rw [List.length_map, hlen], ?_, ?_, ?_⟩
    · exact List.forall_mem_map.mpr fun n hn => plain_isOctet (hplain n hn)
    · rw [hstr, List.append_nil, dotted]
    · rw [haddr, octets_of_plain hconvert hplain]

theorem parse_dottedQuad (hconvert : IntConversion convert) (h : DottedQuad str addr) :
    netstackParseIpv4 convert str old = (0, addr) := by
  obtain ⟨ns, hscan, hplain, haddr⟩ := (dottedQuad_iff hconvert).mp h
  obtain ⟨ns', rest', hscan', -, addr', haddr', hparse⟩ | ⟨hnone, -⟩ := parse_cases convert str
  · obtain ⟨rfl, rfl⟩ := Prod.mk.inj (Option.some.inj (hscan.symm.trans hscan'))
    obtain rfl := Vector.toList_inj.mp (haddr.trans haddr'.symm)
    exact hparse old
  · exact absurd (fun n hn => plain_inRange hconvert (hplain n hn)) (hnone ns [] hscan)

theorem parsesQuads_iff (hconvert : IntConversion convert) :
    ParsesQuads convert str ↔ NothingExtra convert str := by
  constructor
  · intro h ns rest hlen hstr hrest hin
    have hscan := scanDotted_iff.mpr ⟨hlen, hstr, hrest⟩
    obtain ⟨-, -, -, -, addr, -, hparse⟩ | ⟨hnone, -⟩ := parse_cases convert str
    · obtain ⟨quad, hquad⟩ := (h.accepts addr).mp (by rw [hparse])
      obtain ⟨ns', hscan', hplain, -⟩ := (dottedQuad_iff hconvert).mp hquad
      obtain ⟨rfl, rfl⟩ := Prod.mk.inj (Option.some.inj (hscan.symm.trans hscan'))
      exact ⟨rfl, hplain⟩
    · exact absurd hin (hnone ns rest hscan)
  · intro h
    refine ⟨fun old => ⟨fun hzero => ?_, ?_⟩, ?_, ?_⟩
    · obtain ⟨ns, rest, hscan, hin, addr, haddr, -⟩ | ⟨-, hparse⟩ := parse_cases convert str
      · obtain ⟨hlen, hstr, hrest⟩ := scanDotted_iff.mp hscan
        obtain ⟨rfl, hplain⟩ := h ns rest hlen hstr hrest hin
        exact ⟨addr, (dottedQuad_iff hconvert).mpr ⟨ns, hscan, hplain, haddr⟩⟩
      · rw [hparse] at hzero
        cases hzero
    · rintro ⟨addr, hquad⟩
      rw [parse_dottedQuad hconvert hquad]
    · intro old addr hquad
      rw [parse_dottedQuad hconvert hquad]
    · intro old hfail
      obtain ⟨-, -, -, -, addr, -, hparse⟩ | ⟨-, hparse⟩ := parse_cases convert str
      · rw [hparse] at hfail
        cases hfail
      · rw [hparse]

end Parsing

section Formatting

variable {convert : Int → Int} {rest : Bytes} {k m : Nat} {ns : List Numeral} {values : List Nat}
  {addr : IPv4Address} {size : BitVec 32}

def valuesText (values : List Nat) : Bytes := [dotSeparator].intercalate (values.map decimalText)

theorem valuesText_cons (v : Nat) (hne : values ≠ []) :
    valuesText (v :: values) = decimalText v ++ dotSeparator :: valuesText values := by
  obtain ⟨w, ws, rfl⟩ := List.exists_cons_of_ne_nil hne
  simp [valuesText, List.intercalate_cons_cons]

theorem valuesText_singleton (v : Nat) : valuesText [v] = decimalText v := by
  rw [valuesText, List.map_singleton, List.intercalate_singleton]

theorem quadText_eq (addr : IPv4Address) :
    quadText addr = valuesText (addr.toList.map BitVec.toNat) := by
  have hlist : addr.toList = [addr[0], addr[1], addr[2], addr[3]] :=
    List.ext_getElem (by simp) fun i hi _ => by
      have hi : i < 4 := by simpa using hi
      interval_cases i <;> rfl
  simp [hlist, quadText, valuesText_cons, valuesText_singleton]

theorem isOctet_decimalText {v : Nat} (h : v ≤ 255) : IsOctet (decimalText v) where
  someDigit := decimalText_ne_nil v
  allDigits := isDigit_of_mem_decimalText
  inRange := by rwa [decimal_decimalText]

theorem quadText_dottedQuad (addr : IPv4Address) : DottedQuad (quadText addr) addr := by
  refine ⟨(addr.toList.map BitVec.toNat).map decimalText, by simp, ?_, quadText_eq addr, ?_⟩
  · rw [List.map_map]
    refine List.forall_mem_map.mpr fun o _ => isOctet_decimalText ?_
    exact Nat.le_of_lt_succ o.isLt
  · simp [decimal_decimalText, Function.comp_def]

theorem length_quadText_le (addr : IPv4Address) : (quadText addr).length ≤ 15 := by
  have hlen : ∀ o : BitVec 8, (decimalText o.toNat).length ≤ 3 := fun o =>
    (length_decimalText_le_iff (by decide)).mpr (o.isLt.trans (by decide))
  have h0 := hlen addr[0]
  have h1 := hlen addr[1]
  have h2 := hlen addr[2]
  have h3 := hlen addr[3]
  simp only [quadText, List.length_append, List.length_cons]
  omega

theorem scanDotted_take_inside {v : Nat} (hm : m ≤ (decimalText v).length) (tail : Bytes) :
    scanDotted (k + 1) ((decimalText v ++ tail).take m) = none := by
  rw [List.take_append_of_le_length hm, scanDotted]
  cases hn : scanNumeral ((decimalText v).take m) with
  | none => rfl
  | some p =>
    obtain ⟨n, rest⟩ := p
    obtain ⟨rfl, -, -⟩ := scanNumeral_of_digits isDigit_of_mem_cut hn
    rfl

theorem scanDotted_take_beyond (v j : Nat) (tail : Bytes) :
    scanDotted (k + 1) ((decimalText v ++ dotSeparator :: tail).take
        ((decimalText v).length + (j + 1))) =
      (scanDotted k (tail.take j)).map fun p => (numeralOf v :: p.1, p.2) := by
  rw [List.take_length_add_append, List.take_succ_cons, scanDotted,
    scanNumeral_decimalText (dotSeparator_outside _)]
  simp only [Option.bind_eq_bind, Option.bind_some, scanLiteral_cons]
  rw [Option.map_eq_bind]
  rfl

theorem scanDotted_cut (hlen : values.length = k + 1) (hm : m < (valuesText values).length)
    (h : scanDotted k ((valuesText values).take m) = some (ns, rest)) :
    ∃ front last cut, values = front ++ [last] ∧ cut < last ∧
      ns.map Numeral.value = (front ++ [cut]).map Nat.cast := by
  induction k generalizing values m ns with
  | zero =>
    obtain ⟨v, rfl⟩ := List.length_eq_one_iff.mp hlen
    rw [valuesText_singleton] at hm h
    obtain ⟨⟨n, after⟩, hn, hsame⟩ := Option.map_eq_some_iff.mp h
    obtain ⟨rfl, rfl⟩ := Prod.mk.inj hsame
    obtain ⟨cut, hlt, hvalue⟩ := scanNumeral_cut hm hn
    exact ⟨[], v, cut, rfl, hlt, congrArg (· :: []) hvalue⟩
  | succ k ih =>
    obtain ⟨v, more, rfl⟩ := List.exists_cons_of_length_eq_add_one hlen
    have hmore : more.length = k + 1 := by simpa using hlen
    rw [valuesText_cons v (List.ne_nil_of_length_eq_add_one hmore)] at hm h
    by_cases hinside : m ≤ (decimalText v).length
    · rw [scanDotted_take_inside hinside] at h
      cases h
    · obtain ⟨j, rfl⟩ : ∃ j, m = (decimalText v).length + (j + 1) :=
        ⟨m - (decimalText v).length - 1, by omega⟩
      rw [scanDotted_take_beyond] at h
      obtain ⟨⟨ns, after⟩, hns, hsame⟩ := Option.map_eq_some_iff.mp h
      obtain ⟨rfl, rfl⟩ := Prod.mk.inj hsame
      have hj : j < (valuesText more).length := by
        simp only [List.length_append, List.length_cons] at hm
        omega
      obtain ⟨front, last, cut, rfl, hlt, hvalues⟩ := ih hmore hj hns
      refine ⟨v :: front, last, cut, rfl, hlt, ?_⟩
      rw [List.map_cons, hvalues, numeralOf_value]
      rfl

theorem cut_differs {front : List Nat} {last cut : Nat} (hconvert : IntConversion convert)
    (hlt : cut < last) (hns : ns.map Numeral.value = (front ++ [cut]).map Nat.cast) :
    (octets convert ns).map BitVec.toNat ≠ front ++ [last] := by
  intro hsame
  have hbytes : octets convert ns =
      ((front ++ [cut]).map Nat.cast).map fun v => BitVec.ofInt 8 (convert v) := by
    rw [← hns, octets, List.map_map]
    rfl
  rw [hbytes, List.map_map, List.map_map, List.map_append] at hsame
  have hlast : (BitVec.ofInt 8 (convert cut)).toNat = last := by
    simpa using (List.append_inj' hsame rfl).2
  have hsmall : last < 256 := hlast ▸ (BitVec.ofInt 8 (convert cut)).isLt
  rw [hconvert cut (by omega) (by omega), BitVec.ofInt_natCast, BitVec.toNat_ofNat] at hlast
  omega

theorem readsBack_iff (hconvert : IntConversion convert) :
    ReadsBack convert addr size ↔ (quadText addr).length < size.toNat := by
  constructor
  · intro h
    by_contra hshort
    by_cases hzero : size = 0
    · have hnone := h [] addr
      rw [netstackFormatIpv4, if_pos hzero] at hnone
      cases hnone
    · have hparsed := h [] addr
      rw [netstackFormatIpv4, if_neg hzero, clip] at hparsed
      have hpos : size.toNat ≠ 0 := fun hsize => hzero (BitVec.eq_of_toNat_eq hsize)
      obtain ⟨ns, rest, hscan, -, addr', haddr, hparse⟩ | ⟨-, hparse⟩ :=
        parse_cases convert ((quadText addr).take (size.toNat - 1))
      · obtain rfl : addr' = addr := congrArg Prod.snd ((hparse addr).symm.trans hparsed)
        rw [quadText_eq] at hscan hshort
        obtain ⟨front, last, cut, hvalues, hlt, hns⟩ :=
          scanDotted_cut (by simp) (by omega) hscan
        exact cut_differs hconvert hlt hns (haddr ▸ hvalues)
      · rw [hparse] at hparsed
        cases hparsed
  · intro hroom str old
    have hsize : size ≠ 0 := by
      rintro rfl
      exact absurd hroom (by simp)
    rw [netstackFormatIpv4, if_neg hsize, clip_of_length_lt hroom]
    exact parse_dottedQuad hconvert (quadText_dottedQuad addr)

theorem readsBack_of_room (hconvert : IntConversion convert) (hsize : 16 ≤ size.toNat) :
    ReadsBack convert addr size :=
  (readsBack_iff hconvert).mpr ((length_quadText_le addr).trans_lt (by omega))

end Formatting

theorem dotted_quads_parsed_iff (convert : Int → Int) (hconvert : IntConversion convert)
    (str : Bytes) :
    (ParsesQuads convert str ↔ NothingExtra convert str) ∧
    ∀ addr size, ReadsBack convert addr size ↔ (quadText addr).length < size.toNat :=
  ⟨parsesQuads_iff hconvert, fun _ _ => readsBack_iff hconvert⟩

section Extras

-- strtol stops at the ends of a 64-bit long, and an int keeps the low half of it.
def glibcInt (n : Int) : Int := (max (-2 ^ 63) (min n (2 ^ 63 - 1))).bmod (2 ^ 32)

theorem glibcInt_conversion : IntConversion glibcInt := by
  intro n hge hlt
  have hlong : max (-2 ^ 63) (min n (2 ^ 63 - 1)) = n := by omega
  rw [glibcInt, hlong]
  exact Int.bmod_eq_of_le (by omega) (by omega)

theorem dotted_quads_parsed_iff_guest :
    (ParsesQuads glibcInt (str "10.0.2.15") ↔ NothingExtra glibcInt (str "10.0.2.15")) ∧
    ReadsBack glibcInt #v[10, 0, 2, 15] 16 :=
  have h := dotted_quads_parsed_iff glibcInt glibcInt_conversion (str "10.0.2.15")
  ⟨h.1, (h.2 _ _).mpr (by decide +kernel)⟩

theorem dottedQuad_bytes {text : Bytes} {addr : IPv4Address} {c : UInt8}
    (h : DottedQuad text addr) (hc : c ∈ text) : isDigit c = true ∨ c = dotSeparator := by
  obtain ⟨words, -, hoctets, rfl, -⟩ := h
  rcases mem_joined hc with hsep | ⟨word, hword, hin⟩
  · exact .inr hsep
  · exact .inl ((hoctets word hword).allDigits c hin)

theorem not_parsesQuads {convert : Int → Int} {text : Bytes} (old : IPv4Address) (c : UInt8)
    (hc : c ∈ text) (hother : isDigit c = false ∧ c ≠ dotSeparator)
    (hzero : (netstackParseIpv4 convert text old).1 = 0) : ¬ ParsesQuads convert text := by
  intro h
  obtain ⟨addr, hquad⟩ := (h.accepts old).mp hzero
  rcases dottedQuad_bytes hquad hc with hdigit | hdot
  · exact absurd (hother.1.symm.trans hdigit) (by decide)
  · exact hother.2 hdot

def anyAddress : IPv4Address := Vector.replicate 4 0

theorem extra_text_accepted :
    ¬ ParsesQuads glibcInt (str "10.0.2.15x") ∧ ¬ ParsesQuads glibcInt (str " 10.0.2.15") ∧
    ¬ ParsesQuads glibcInt (str "10.0.+2.15") := by
  refine ⟨not_parsesQuads anyAddress 120 ?_ ?_ ?_, not_parsesQuads anyAddress 32 ?_ ?_ ?_,
    not_parsesQuads anyAddress 43 ?_ ?_ ?_⟩
  all_goals decide +kernel

end Extras

end ZoraVM.Kernel
