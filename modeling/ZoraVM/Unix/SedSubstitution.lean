import ZoraVM.Foundation.Occurrences
import ZoraVM.Unix.SubstitutionEnds

namespace ZoraVM.Unix

open Foundation

section Statements

variable (pattern replacement flags : Bytes)

def digitFlag : Option Nat := (flags.find? isDigit).map fun c => c.toNat - 48

def occurrences (line : Bytes) : List Nat :=
  starts (matchesHere (sedFlags flags) pattern) pattern.length line

def nthOccurrence (n : Nat) (line : Bytes) : Option Nat :=
  if n = 0 then none else (occurrences pattern flags line)[n - 1]?

def replaced (ps : List Nat) (line : Bytes) : Bytes := replaceEach pattern.length replacement ps line

structure Substituted (line out : Bytes) : Prop where
  one : (sedFlags flags).global = false → digitFlag flags = none →
    out = replaced pattern replacement (occurrences pattern flags line).head?.toList line
  all : (sedFlags flags).global = true →
    out = replaced pattern replacement (occurrences pattern flags line) line
  nth : ∀ n, digitFlag flags = some n →
    out = replaced pattern replacement (nthOccurrence pattern flags n line).toList line

def SubstitutesText (text : Bytes) : Prop :=
  ∃ lines, List.Forall₂ (Substituted pattern replacement flags) (linesOf newline text) lines ∧
    ∀ outputSize, (endedLines newline lines).length < outputSize → ∃ output,
      Settles (fun fuel => outputOf
        (unixSedSubstituteEnhanced fuel pattern replacement flags (text ++ [0]) outputSize)) output ∧
      linesOf newline output = linesOf newline (endedLines newline lines)

-- The match the code counts to: also those that overlap the one before, and the first for 0.
def nthMatch (n : Nat) (line : Bytes) : Option Nat :=
  (everyStart (matchesHere (sedFlags flags) pattern) line)[n - 1]?

def substitutedLine (line : Bytes) : Bytes :=
  if (sedFlags flags).global then replaced pattern replacement (occurrences pattern flags line) line
  else
    match digitFlag flags with
    | none => replaced pattern replacement (occurrences pattern flags line).head?.toList line
    | some n => replaced pattern replacement (nthOccurrence pattern flags n line).toList line

-- A match that has no room in line_output is left as it is.
def CountsRight (n : Nat) (line : Bytes) : Prop :=
  if (sedFlags flags).global then
    occurrences pattern flags line = [] ∨ (occurrences pattern flags line).length = 1 ∧ n = 1
  else
    nthMatch pattern flags n line = nthOccurrence pattern flags n line ∨
      nthOccurrence pattern flags n line = none ∧
        ∃ p, nthMatch pattern flags n line = some p ∧ lineOutputSize - 1 < p + replacement.length

structure Substitutable (line : Bytes) : Prop where
  not_blank : line ≠ []
  room : (substitutedLine pattern replacement flags line).length ≤ lineOutputSize - 1
  counted : ∀ n, digitFlag flags = some n → CountsRight pattern replacement flags n line

structure TextSubstitutable (text : Bytes) : Prop where
  lines : ∀ line ∈ linesOf newline text, Substitutable pattern replacement flags line
  last : ∀ line, (linesOf newline text).getLast? = some line →
    EndsInWord [newline] (substitutedLine pattern replacement flags line)

end Statements

section Matching

variable {pattern : Bytes} {flags : SedFlags} {src : Bytes}

theorem length_le_of_matchesHere (h : matchesHere flags pattern src = true) :
    pattern.length ≤ src.length := by
  unfold matchesHere at h
  split at h
  · have hle := (List.isPrefixOf_iff_prefix.mp h).length_le
    simpa using hle
  · exact (List.isPrefixOf_iff_prefix.mp h).length_le

end Matching

section Buffered

variable {pattern replacement src out rest out' : Bytes} {flags : SedFlags} {fuel k : Nat}

def completed (p : Bytes × Bytes) : Bytes := p.2 ++ p.1.take (lineOutputSize - 1 - p.2.length)

theorem sedLine_eq_completed (fuel : Nat) (line : Bytes) :
    sedLine fuel pattern replacement flags line =
      (sedLineLoop pattern replacement flags fuel line [] 0).map completed := rfl

theorem completed_take (h : out.length ≤ lineOutputSize - 1) :
    completed (src, out) = (out ++ src).take (lineOutputSize - 1) := by
  rw [completed, List.take_append, List.take_of_length_le h]

theorem take_full (h : lineOutputSize - 1 ≤ out.length) (hout : out.length ≤ lineOutputSize - 1)
    (xs ys : Bytes) : (out ++ xs).take (lineOutputSize - 1) = (out ++ ys).take (lineOutputSize - 1) := by
  rw [List.take_left' (by omega), List.take_left' (by omega)]

def singleStart (pattern : Bytes) (flags : SedFlags) (k : Nat) (src : Bytes) : Option Nat :=
  (everyStart (matchesHere flags pattern) src)[flags.numeric - k - 1]?

def singleReplaced (pattern replacement : Bytes) (start : Option Nat) (out src : Bytes) : Bytes :=
  match start with
  | none => out ++ src
  | some p =>
    if out.length + p + replacement.length ≤ lineOutputSize - 1 then
      out ++ replaceAt pattern.length replacement p src
    else out ++ src

theorem singleReplaced_map (start : Option Nat) (out src : Bytes) (c : UInt8) :
    singleReplaced pattern replacement (start.map (· + 1)) out (c :: src) =
      singleReplaced pattern replacement start (out ++ [c]) src := by
  cases start with
  | none => simp [singleReplaced]
  | some p =>
    simp only [singleReplaced, Option.map_some, List.length_append, List.length_singleton,
      replaceAt_cons, List.append_assoc, List.singleton_append]
    rw [show out.length + (p + 1) + replacement.length = out.length + 1 + p + replacement.length by omega]

theorem singleReplaced_prefix (pattern replacement : Bytes) (start : Option Nat) (out src : Bytes) :
    out <+: singleReplaced pattern replacement start out src := by
  cases start with
  | none => exact List.prefix_append _ _
  | some p =>
    simp only [singleReplaced]
    split <;> exact List.prefix_append _ _

theorem singleStart_of_chosen {c : UInt8} (hlocal : flags.global = false)
    (hmatch : matchesHere flags pattern (c :: src) = true) (hchosen : Chosen flags (k + 1)) :
    singleStart pattern flags k (c :: src) = some 0 := by
  have hfirst : flags.numeric - k - 1 = 0 := by
    rcases hchosen with hzero | hlast | hglobal
    · omega
    · omega
    · rw [hlocal] at hglobal
      cases hglobal
  rw [singleStart, everyStart, if_pos hmatch, hfirst]
  rfl

theorem single_of_run {r : Bytes × Bytes} (hlocal : flags.global = false)
    (hcount : 0 < flags.numeric → k < flags.numeric) (hout : out.length ≤ lineOutputSize - 1)
    (h : LineRun pattern replacement flags src out k r) :
    completed r = (singleReplaced pattern replacement (singleStart pattern flags k src)
      out src).take (lineOutputSize - 1) := by
  induction h with
  | ended => exact completed_take hout
  | @full src out k hfull =>
    obtain ⟨behind, hbehind⟩ := singleReplaced_prefix pattern replacement
      (singleStart pattern flags k src) out src
    rw [completed_take hout, ← hbehind]
    exact take_full hfull hout _ _
  | @copied c src out k r hroom hmatch _ ih =>
    have hstart : singleStart pattern flags k (c :: src) =
        (singleStart pattern flags k src).map (· + 1) := by
      rw [singleStart, everyStart, if_neg (by simp [hmatch]), List.getElem?_map, singleStart]
    rw [hstart, singleReplaced_map]
    apply ih hcount
    rw [List.length_append, List.length_singleton]
    omega
  | @passed c src out k r hroom hmatch hchosen _ ih =>
    have hmore := more_of_not_chosen hcount hchosen
    have hpos : 0 < flags.numeric := Nat.pos_of_ne_zero fun hzero => hchosen (.inl hzero)
    have hstart : singleStart pattern flags k (c :: src) =
        (singleStart pattern flags (k + 1) src).map (· + 1) := by
      have hlt := hmore hpos
      obtain ⟨j, hj⟩ : ∃ j, flags.numeric - k - 1 = j + 1 := ⟨flags.numeric - k - 2, by omega⟩
      rw [singleStart, everyStart, if_pos hmatch, hj, List.getElem?_cons_succ,
        List.getElem?_map, singleStart, show flags.numeric - (k + 1) - 1 = j by omega]
    rw [hstart, singleReplaced_map]
    apply ih hmore
    rw [List.length_append, List.length_singleton]
    omega
  | crowded hmatch hchosen hlong =>
    rw [singleStart_of_chosen hlocal hmatch hchosen, singleReplaced, if_neg (by omega)]
    exact completed_take hout
  | last hmatch hchosen hfit _ =>
    rw [singleStart_of_chosen hlocal hmatch hchosen, singleReplaced, if_pos (by omega),
      replaceAt_zero, ← List.append_assoc]
    exact completed_take (by rw [List.length_append]; exact hfit)
  | replaced _ hchosen _ hfinal => exact absurd (final_of_chosen hlocal hchosen) hfinal

def limited (flags : SedFlags) (k : Nat) (ps : List Nat) : List Nat :=
  if flags.numeric = 0 then ps else ps.take (flags.numeric - k)

theorem limited_map (k : Nat) (f : Nat → Nat) (ps : List Nat) :
    limited flags k (ps.map f) = (limited flags k ps).map f := by
  unfold limited
  split
  · rfl
  · exact List.map_take.symm

theorem limited_cons (hcount : 0 < flags.numeric → k < flags.numeric) (p : Nat) (ps : List Nat) :
    limited flags k (p :: ps) = p :: limited flags (k + 1) ps := by
  unfold limited
  split
  · rfl
  · next hnumeric =>
    have hlt := hcount (Nat.pos_of_ne_zero hnumeric)
    obtain ⟨j, hj⟩ : ∃ j, flags.numeric - k = j + 1 := ⟨flags.numeric - k - 1, by omega⟩
    rw [hj, List.take_succ_cons, show flags.numeric - (k + 1) = j by omega]

def globalReplaced (pattern replacement : Bytes) (flags : SedFlags) (k : Nat) (src : Bytes) : Bytes :=
  replaceEach pattern.length replacement
    (limited flags k (starts (matchesHere flags pattern) pattern.length src)) src

theorem globalReplaced_nil : globalReplaced pattern replacement flags k [] = [] := by
  simp [globalReplaced, limited]

theorem globalReplaced_miss {c : UInt8} (h : matchesHere flags pattern (c :: src) = false) :
    globalReplaced pattern replacement flags k (c :: src) =
      c :: globalReplaced pattern replacement flags k src := by
  rw [globalReplaced, starts_miss h, limited_map, replaceEach_map_succ, globalReplaced]

theorem globalReplaced_hit {c : UInt8} (hpattern : pattern ≠ [])
    (hcount : 0 < flags.numeric → k < flags.numeric)
    (h : matchesHere flags pattern (c :: src) = true) :
    globalReplaced pattern replacement flags k (c :: src) =
      replacement ++ globalReplaced pattern replacement flags (k + 1) ((c :: src).drop pattern.length) := by
  have htake : ((c :: src).take pattern.length).length = pattern.length :=
    List.length_take_of_le (length_le_of_matchesHere h)
  have hlater := replaceEach_map_add pattern.length replacement
    (limited flags (k + 1) (starts (matchesHere flags pattern) pattern.length
      ((c :: src).drop pattern.length))) ((c :: src).take pattern.length)
    ((c :: src).drop pattern.length)
  rw [htake, List.take_append_drop] at hlater
  rw [globalReplaced, starts_hit (List.length_pos_iff.mpr hpattern) h, limited_cons hcount,
    limited_map, replaceEach_cons, hlater, replaceAt_zero, List.drop_left' htake, globalReplaced]

theorem global_of_run {r : Bytes × Bytes} (hpattern : pattern ≠ []) (hglobal : flags.global = true)
    (hcount : 0 < flags.numeric → k < flags.numeric)
    (hfit : (out ++ globalReplaced pattern replacement flags k src).length ≤ lineOutputSize - 1)
    (h : LineRun pattern replacement flags src out k r) :
    completed r = out ++ globalReplaced pattern replacement flags k src := by
  induction h with
  | ended => rw [globalReplaced_nil, completed, List.take_nil]
  | @full src out k hfull =>
    have hout : out.length ≤ lineOutputSize - 1 := by
      rw [List.length_append] at hfit
      omega
    rw [completed_take hout, ← take_full hfull hout (globalReplaced pattern replacement flags k src),
      List.take_of_length_le hfit]
  | copied _ hmatch _ ih =>
    rw [globalReplaced_miss hmatch, ← List.singleton_append, ← List.append_assoc] at hfit ⊢
    exact ih hcount hfit
  | passed _ _ hchosen => exact absurd (.inr (.inr hglobal)) hchosen
  | crowded hmatch _ hlong =>
    rw [globalReplaced_hit hpattern hcount hmatch, List.length_append, List.length_append] at hfit
    omega
  | last hmatch _ _ hfinal =>
    obtain ⟨hpos, hlast⟩ := hfinal.resolve_left fun hmany => by simp [hglobal] at hmany
    rw [globalReplaced_hit hpattern hcount hmatch, globalReplaced, limited, if_neg (by omega),
      show flags.numeric - _ = 0 from Nat.sub_eq_zero_of_le hlast.ge,
      List.take_zero, replaceEach_nil, ← List.append_assoc] at hfit ⊢
    rw [completed_take (by rw [List.length_append] at hfit; omega), List.take_of_length_le hfit]
  | replaced hmatch _ _ hfinal _ ih =>
    rw [globalReplaced_hit hpattern hcount hmatch, ← List.append_assoc] at hfit ⊢
    exact ih (more_of_not_final hcount hfinal) hfit

theorem bounded_of_run {r : Bytes × Bytes} (hout : out.length ≤ lineOutputSize - 1)
    (h : LineRun pattern replacement flags src out k r) :
    r.2.length ≤ lineOutputSize - 1 ∧ ∀ b ∈ r.1 ++ r.2, b ∈ src ++ out ∨ b ∈ replacement := by
  have hdropped : ∀ {b : UInt8} {src out : Bytes},
      b ∈ src.drop pattern.length ++ (out ++ replacement) → b ∈ src ++ out ∨ b ∈ replacement := by
    intro b src out hb
    rcases List.mem_append.mp hb with hb | hb
    · exact .inl (List.mem_append_left _ (List.mem_of_mem_drop hb))
    · exact (List.mem_append.mp hb).imp_left (List.mem_append_right _)
  have hcopied : ∀ {b c : UInt8} {src out : Bytes}, b ∈ src ++ (out ++ [c]) ∨ b ∈ replacement →
      b ∈ c :: src ++ out ∨ b ∈ replacement := by
    intro b c src out hb
    simp only [List.mem_append, List.mem_cons, List.not_mem_nil, or_false] at hb ⊢
    tauto
  induction h with
  | ended => exact ⟨hout, fun b hb => .inl hb⟩
  | full => exact ⟨hout, fun b hb => .inl hb⟩
  | copied hroom _ _ ih =>
    obtain ⟨hle, hmem⟩ := ih (by rw [List.length_append, List.length_singleton]; omega)
    exact ⟨hle, fun b hb => hcopied (hmem b hb)⟩
  | passed hroom _ _ _ ih =>
    obtain ⟨hle, hmem⟩ := ih (by rw [List.length_append, List.length_singleton]; omega)
    exact ⟨hle, fun b hb => hcopied (hmem b hb)⟩
  | crowded => exact ⟨hout, fun b hb => .inl hb⟩
  | last _ _ hfit => exact ⟨by rw [List.length_append]; exact hfit, fun b hb => hdropped hb⟩
  | replaced _ _ hfit _ _ ih =>
    obtain ⟨hle, hmem⟩ := ih (by rw [List.length_append]; exact hfit)
    exact ⟨hle, fun b hb => (hmem b hb).elim hdropped .inr⟩

end Buffered

section Line

variable {pattern replacement flags line out : Bytes} {fuel n : Nat}

theorem sedLine_bounded (h : sedLine fuel pattern replacement (sedFlags flags) line = some out) :
    out.length ≤ lineOutputSize - 1 ∧ ∀ b ∈ out, b ∈ line ∨ b ∈ replacement := by
  rw [sedLine_eq_completed] at h
  obtain ⟨⟨rest, out'⟩, hloop, rfl⟩ := Option.map_eq_some_iff.mp h
  obtain ⟨hle, hmem⟩ := bounded_of_run (Nat.zero_le _) (lineRun_of_loop hloop)
  constructor
  · dsimp only at hle
    simp only [completed, List.length_append, List.length_take]
    omega
  · intro b hb
    have hb' : b ∈ rest ++ out' := by
      rcases List.mem_append.mp hb with hb | hb
      · exact List.mem_append_right _ hb
      · exact List.mem_append_left _ (List.mem_of_mem_take hb)
    simpa using hmem b hb'

theorem sedLine_single (hlocal : (sedFlags flags).global = false)
    (h : sedLine fuel pattern replacement (sedFlags flags) line = some out) :
    out = (singleReplaced pattern replacement (nthMatch pattern flags (sedFlags flags).numeric line)
      [] line).take (lineOutputSize - 1) := by
  rw [sedLine_eq_completed] at h
  obtain ⟨p, hloop, rfl⟩ := Option.map_eq_some_iff.mp h
  exact single_of_run hlocal id (Nat.zero_le _) (lineRun_of_loop hloop)

theorem sedLine_global (hpattern : pattern ≠ []) (hglobal : (sedFlags flags).global = true)
    (hfit : (globalReplaced pattern replacement (sedFlags flags) 0 line).length ≤ lineOutputSize - 1)
    (h : sedLine fuel pattern replacement (sedFlags flags) line = some out) :
    out = globalReplaced pattern replacement (sedFlags flags) 0 line := by
  rw [sedLine_eq_completed] at h
  obtain ⟨p, hloop, rfl⟩ := Option.map_eq_some_iff.mp h
  exact global_of_run hpattern hglobal id hfit (lineRun_of_loop hloop)

theorem numeric_eq (flags : Bytes) : (sedFlags flags).numeric = (digitFlag flags).getD 0 := rfl

theorem nthMatch_zero (pattern flags line : Bytes) :
    nthMatch pattern flags 0 line = (occurrences pattern flags line).head? := by
  rw [occurrences, head?_starts, nthMatch, List.head?_eq_getElem?]

theorem singleReplaced_room {start : Option Nat} (hstart : ∀ p, start = some p → p ≤ line.length)
    (hroom : (replaced pattern replacement start.toList line).length ≤ lineOutputSize - 1) :
    (singleReplaced pattern replacement start [] line).take (lineOutputSize - 1) =
      replaced pattern replacement start.toList line := by
  cases start with
  | none => exact List.take_of_length_le hroom
  | some p =>
    have hp := length_replaceAt_ge pattern.length replacement (hstart p rfl)
    have hroom' : (replaceAt pattern.length replacement p line).length ≤ lineOutputSize - 1 := hroom
    simp only [singleReplaced, List.length_nil, Nat.zero_add, List.nil_append]
    rw [if_pos (by omega), List.take_of_length_le hroom']
    rfl

theorem nthMatch_le {p : Nat} (h : nthMatch pattern flags n line = some p) : p ≤ line.length :=
  (everyStart_lt (List.mem_of_getElem? h)).le

theorem globalReplaced_of_counted (hglobal : (sedFlags flags).global = true)
    (hcounted : ∀ n, digitFlag flags = some n → CountsRight pattern replacement flags n line) :
    globalReplaced pattern replacement (sedFlags flags) 0 line =
      substitutedLine pattern replacement flags line := by
  rw [substitutedLine, if_pos hglobal, globalReplaced, limited, numeric_eq]
  cases hdigit : digitFlag flags with
  | none => rfl
  | some n =>
    have hright := hcounted n hdigit
    rw [CountsRight, if_pos hglobal] at hright
    rcases hright with hnone | ⟨hone, rfl⟩
    · simp only [occurrences] at hnone
      simp [replaced, occurrences, hnone]
    · simp only [occurrences] at hone
      rw [Option.getD_some, if_neg Nat.one_ne_zero, List.take_of_length_le (by rw [hone])]
      rfl

theorem line_of_substitutable (hpattern : pattern ≠ [])
    (h : Substitutable pattern replacement flags line)
    (hrun : sedLine fuel pattern replacement (sedFlags flags) line = some out) :
    out = substitutedLine pattern replacement flags line := by
  obtain ⟨_, hroom, hcounted⟩ := h
  cases hglobal : (sedFlags flags).global with
  | true =>
    rw [← globalReplaced_of_counted hglobal hcounted] at hroom ⊢
    exact sedLine_global hpattern hglobal hroom hrun
  | false =>
    rw [sedLine_single hglobal hrun, numeric_eq]
    rw [substitutedLine, if_neg (by simp [hglobal])] at hroom ⊢
    cases hdigit : digitFlag flags with
    | none =>
      rw [hdigit] at hroom
      simp only [Option.getD_none, nthMatch_zero] at hroom ⊢
      refine singleReplaced_room (fun p hp => ?_) hroom
      rw [← nthMatch_zero] at hp
      exact nthMatch_le hp
    | some n =>
      rw [hdigit] at hroom
      simp only [Option.getD_some] at hroom ⊢
      have hright := hcounted n hdigit
      rw [CountsRight, if_neg (by simp [hglobal])] at hright
      rcases hright with heq | ⟨hnone, p, hp, hlong⟩
      · rw [← heq] at hroom ⊢
        exact singleReplaced_room (fun p hp => nthMatch_le hp) hroom
      · rw [hnone] at hroom ⊢
        rw [hp, singleReplaced, if_neg (by simpa using hlong)]
        exact List.take_of_length_le hroom

theorem nthOccurrence_of_single {p : Nat} (h : (occurrences pattern flags line) = [p]) :
    nthOccurrence pattern flags 1 line = some p := by
  rw [nthOccurrence, if_neg Nat.one_ne_zero, h]
  rfl

theorem nthOccurrence_of_none (h : occurrences pattern flags line = []) :
    nthOccurrence pattern flags n line = none := by
  rw [nthOccurrence, h]
  split <;> rfl

theorem substituted_of_counted
    (h : ∀ n, digitFlag flags = some n → CountsRight pattern replacement flags n line) :
    Substituted pattern replacement flags line (substitutedLine pattern replacement flags line) := by
  refine ⟨fun hlocal hdigit => ?_, fun hglobal => ?_, fun n hdigit => ?_⟩
  · rw [substitutedLine, if_neg (by simp [hlocal]), hdigit]
  · rw [substitutedLine, if_pos hglobal]
  · cases hglobal : (sedFlags flags).global with
    | false => rw [substitutedLine, if_neg (by simp [hglobal]), hdigit]
    | true =>
      have hright := h n hdigit
      rw [CountsRight, if_pos hglobal] at hright
      rw [substitutedLine, if_pos hglobal]
      rcases hright with hnone | ⟨hone, rfl⟩
      · rw [nthOccurrence_of_none hnone, hnone]
        rfl
      · obtain ⟨p, hp⟩ := List.length_eq_one_iff.mp hone
        rw [nthOccurrence_of_single hp, hp]
        rfl

theorem nthOccurrence_le {p : Nat} (h : nthOccurrence pattern flags n line = some p) :
    p ≤ line.length := by
  unfold nthOccurrence at h
  split at h
  · cases h
  · exact (starts_lt (List.mem_of_getElem? h)).le

theorem counted_global {b : UInt8} (hpattern : pattern ≠ []) (hb : b ∈ replacement) (hfresh : b ∉ line)
    (h : replaced pattern replacement (occurrences pattern flags line) line =
      replaced pattern replacement (nthOccurrence pattern flags n line).toList line) :
    occurrences pattern flags line = [] ∨ (occurrences pattern flags line).length = 1 ∧ n = 1 := by
  have hpos : 0 < replacement.count b := List.count_pos_iff.mpr hb
  have hhit : ∀ src, matchesHere (sedFlags flags) pattern src = true → pattern.length ≤ src.length :=
    fun _ => length_le_of_matchesHere
  have hcount := count_replaceEach_starts replacement (List.length_pos_iff.mpr hpattern) hhit hfresh
  have hall : (occurrences pattern flags line).length * replacement.count b =
      (replaced pattern replacement (nthOccurrence pattern flags n line).toList line).count b := by
    rw [← h]
    exact hcount.symm
  cases hnth : nthOccurrence pattern flags n line with
  | none =>
    left
    rw [hnth] at hall
    have hzero : (occurrences pattern flags line).length * replacement.count b = 0 :=
      hall.trans (List.count_eq_zero.mpr hfresh)
    rcases Nat.mul_eq_zero.mp hzero with hnil | hzero
    · exact List.length_eq_zero_iff.mp hnil
    · omega
  | some p =>
    right
    rw [hnth] at hall
    have hone : (occurrences pattern flags line).length * replacement.count b =
        1 * replacement.count b := by
      rw [hall, Nat.one_mul]
      exact count_replaceAt hfresh
    have hlength := Nat.eq_of_mul_eq_mul_right hpos hone
    refine ⟨hlength, ?_⟩
    unfold nthOccurrence at hnth
    split at hnth
    · cases hnth
    · obtain ⟨hlt, _⟩ := List.getElem?_eq_some_iff.mp hnth
      omega

theorem mem_replaced (pattern : Bytes) {b : UInt8} {start : Option Nat} (hb : b ∈ replacement)
    (hfresh : b ∉ line) :
    b ∈ replaced pattern replacement start.toList line ↔ start ≠ none := by
  cases start with
  | none => exact iff_of_false hfresh (by simp)
  | some p =>
    refine iff_of_true ?_ (by simp)
    exact List.mem_append_left _ (List.mem_append_right _ hb)

theorem counted_local {b : UInt8} (hb : b ∈ replacement) (hfresh : b ∉ line)
    (h : (singleReplaced pattern replacement (nthMatch pattern flags n line) [] line).take
      (lineOutputSize - 1) =
        replaced pattern replacement (nthOccurrence pattern flags n line).toList line) :
    nthMatch pattern flags n line = nthOccurrence pattern flags n line ∨
      nthOccurrence pattern flags n line = none ∧
        ∃ p, nthMatch pattern flags n line = some p ∧ lineOutputSize - 1 < p + replacement.length := by
  have hunchanged : line.take (lineOutputSize - 1) =
      replaced pattern replacement (nthOccurrence pattern flags n line).toList line →
      nthOccurrence pattern flags n line = none := by
    intro heq
    by_contra hsome
    have hmem := (mem_replaced pattern hb hfresh).mpr hsome
    rw [← heq] at hmem
    exact hfresh (List.mem_of_mem_take hmem)
  cases hmatch : nthMatch pattern flags n line with
  | none =>
    rw [hmatch] at h
    exact .inl (hunchanged h).symm
  | some p =>
    rw [hmatch, singleReplaced, List.length_nil, Nat.zero_add] at h
    by_cases hroom : p + replacement.length ≤ lineOutputSize - 1
    · left
      rw [if_pos hroom, List.nil_append] at h
      have hidx := idxOf_replaceAt_take pattern.length hb hfresh (nthMatch_le hmatch) hroom
      rw [h] at hidx
      have hmem : b ∈ replaced pattern replacement (nthOccurrence pattern flags n line).toList line := by
        obtain ⟨behind, hbehind⟩ := replaceAt_take (nthMatch_le hmatch) hroom
        rw [← h, hbehind]
        exact List.mem_append_left _ (List.mem_append_right _ hb)
      obtain ⟨q, hq⟩ := Option.ne_none_iff_exists'.mp ((mem_replaced pattern hb hfresh).mp hmem)
      rw [hq] at hidx ⊢
      have hidx' : p + replacement.idxOf b = q + replacement.idxOf b := by
        rw [← hidx]
        exact idxOf_replaceAt hb hfresh (nthOccurrence_le hq)
      rw [Nat.add_right_cancel hidx']
    · right
      rw [if_neg hroom, List.nil_append] at h
      exact ⟨hunchanged h, p, rfl, by omega⟩

theorem substituted_eq (h : Substituted pattern replacement flags line out) :
    out = substitutedLine pattern replacement flags line := by
  rw [substitutedLine]
  split
  · next hglobal => exact h.all hglobal
  · next hlocal =>
    cases hdigit : digitFlag flags with
    | none => exact h.one (by simpa using hlocal) hdigit
    | some n => exact h.nth n hdigit

theorem mem_substitutedLine {b : UInt8} (h : b ∈ substitutedLine pattern replacement flags line) :
    b ∈ line ∨ b ∈ replacement := by
  unfold substitutedLine at h
  split at h
  · exact mem_replaceEach h
  · split at h <;> exact mem_replaceEach h

theorem substitutable_of_line (hpattern : pattern ≠ []) (hne : line ≠ [])
    (hfresh : digitFlag flags = none ∨ ∃ b ∈ replacement, b ∉ line)
    (hrun : sedLine fuel pattern replacement (sedFlags flags) line = some out)
    (h : Substituted pattern replacement flags line out) :
    Substitutable pattern replacement flags line := by
  refine ⟨hne, substituted_eq h ▸ (sedLine_bounded hrun).1, fun n hdigit => ?_⟩
  have hnth := h.nth n hdigit
  rcases hfresh with hnone | ⟨b, hb, hfresh⟩
  · rw [hdigit] at hnone
    cases hnone
  · rw [CountsRight]
    split
    · next hglobal =>
      rw [h.all hglobal] at hnth
      exact counted_global hpattern hb hfresh hnth
    · next hlocal =>
      rw [sedLine_single (by simpa using hlocal) hrun, numeric_eq, hdigit] at hnth
      exact counted_local hb hfresh hnth

end Line

section Text

variable {pattern replacement flags text : Bytes} {fuel outputSize : Nat}

theorem emitted_map (g : Bytes → Bytes) (k : Nat) (lines : List Bytes) :
    emitted id (fun _ line => [g line]) k lines = lines.map g := by
  induction lines generalizing k with
  | nil => rfl
  | cons line lines ih =>
    rw [emitted, ih]
    rfl

theorem endsInWord_intercalate {lines : List Bytes}
    (h : ∀ line, lines.getLast? = some line → EndsInWord [newline] line) (hne : lines ≠ []) :
    EndsInWord [newline] ([newline].intercalate lines) := by
  induction lines using List.reverseRecOn with
  | nil => exact absurd rfl hne
  | append_singleton front line _ =>
    have hline := h line List.getLast?_concat
    by_cases hfront : front = []
    · simpa [hfront] using hline
    · rw [intercalate_concat hfront, endsInWord_append_cons List.mem_cons_self]
      exact hline

theorem substitute_settles {g : Bytes → Bytes} (hzero : 0 ∉ text) (hfuel : text.length < fuel)
    (hline : ∀ line ∈ words [newline] text,
      sedLine fuel pattern replacement (sedFlags flags) line = some (g line))
    (hfit : ([newline].intercalate ((words [newline] text).map g)).length < outputSize) :
    outputOf (unixSedSubstituteEnhanced fuel pattern replacement flags (text ++ [0]) outputSize) =
      .ok (some ([newline].intercalate ((words [newline] text).map g))) := by
  rw [← emitted_map g 1] at hfit ⊢
  refine sedLines_emits hzero hfuel (fun line hin o written h hroom => ?_) hfit
  exact ⟨_, by rw [hline line hin]; rfl, h.separate_copy hroom, by simp⟩

theorem sedLine_exists {line : Bytes} (replacement : Bytes) (hpattern : pattern ≠ [])
    (hline : line ∈ words [newline] text)
    (hfuel : text.length + lineOutputSize + (sedFlags flags).numeric + 1 ≤ fuel) :
    ∃ out, sedLine fuel pattern replacement (sedFlags flags) line = some out := by
  have hlength := length_word_le hline
  exact Option.ne_none_iff_exists'.mp (sedLine_ends (.inl hpattern) (by omega))

theorem substitutes_of_substitutable (hpattern : pattern ≠ []) (hzero : 0 ∉ text)
    (h : TextSubstitutable pattern replacement flags text) :
    SubstitutesText pattern replacement flags text := by
  have hwords : words [newline] text = linesOf newline text :=
    words_eq_linesOf fun line hline => (h.lines line hline).not_blank
  refine ⟨(linesOf newline text).map (substitutedLine pattern replacement flags), ?_, ?_⟩
  · rw [List.forall₂_map_right_iff, List.forall₂_same]
    exact fun line hline => substituted_of_counted (h.lines line hline).counted
  · intro outputSize hsize
    generalize hlines : (linesOf newline text).map (substitutedLine pattern replacement flags) = lines
      at hsize
    have hfit : ([newline].intercalate lines).length < outputSize := by
      by_cases hne : lines = []
      · simpa [hne] using Nat.zero_lt_of_lt hsize
      · rw [← length_intercalate_add newline hne] at hsize
        exact Nat.lt_of_succ_lt hsize
    refine ⟨[newline].intercalate lines,
      ⟨text.length + lineOutputSize + (sedFlags flags).numeric + 1, fun fuel hfuel => ?_⟩, ?_⟩
    · have hline : ∀ line ∈ words [newline] text, sedLine fuel pattern replacement (sedFlags flags)
          line = some (substitutedLine pattern replacement flags line) := by
        intro line hline
        obtain ⟨out, hout⟩ := sedLine_exists replacement hpattern hline hfuel
        rw [hout, line_of_substitutable hpattern (h.lines line (hwords ▸ hline)) hout]
      rw [← hlines, ← hwords] at hfit ⊢
      exact substitute_settles hzero (by omega) hline hfit
    · by_cases hne : lines = []
      · simp [hne, endedLines]
      · rw [← intercalate_append_sep hne, linesOf_concat_sep]
        refine endsInWord_intercalate (fun line hlast => ?_) hne
        rw [← hlines, List.getLast?_map] at hlast
        obtain ⟨source, hsource, rfl⟩ := Option.map_eq_some_iff.mp hlast
        exact h.last source hsource

theorem forall₂_substituted {lines lines' : List Bytes}
    (h : List.Forall₂ (Substituted pattern replacement flags) lines lines') :
    lines' = lines.map (substitutedLine pattern replacement flags) := by
  induction h with
  | nil => rfl
  | cons hline _ ih => rw [List.map_cons, ← ih, substituted_eq hline]

theorem length_intercalate_map_le {lines : List Bytes} {g : Bytes → Bytes}
    (h : ∀ line ∈ lines, (g line).length < lineOutputSize) :
    ([newline].intercalate (lines.map g)).length ≤ lines.length * lineOutputSize := by
  have hended : (endedLines newline (lines.map g)).length ≤ lines.length * lineOutputSize := by
    induction lines with
    | nil => exact Nat.zero_le _
    | cons line lines ih =>
      have hline := h line List.mem_cons_self
      have hrest := ih fun l hl => h l (List.mem_cons_of_mem line hl)
      simp only [endedLines, List.map_cons, List.flatMap_cons, List.length_append, List.length_cons,
        List.length_nil, Nat.add_mul, Nat.one_mul] at hrest ⊢
      omega
  by_cases hne : lines.map g = []
  · simp [hne]
  · rw [← length_intercalate_add newline hne] at hended
    omega

theorem code_lines (hpattern : pattern ≠ []) (hzero : 0 ∉ text) {lines : List Bytes}
    (h : ∀ outputSize, (endedLines newline lines).length < outputSize → ∃ output,
      Settles (fun fuel => outputOf
        (unixSedSubstituteEnhanced fuel pattern replacement flags (text ++ [0]) outputSize)) output ∧
      linesOf newline output = linesOf newline (endedLines newline lines)) :
    ∃ fuel g, (∀ line ∈ words [newline] text,
        sedLine fuel pattern replacement (sedFlags flags) line = some (g line)) ∧
      linesOf newline ([newline].intercalate ((words [newline] text).map g)) =
        linesOf newline (endedLines newline lines) := by
  obtain ⟨output, ⟨enough, hrun⟩, hlines⟩ := h ((endedLines newline lines).length +
    (words [newline] text).length * lineOutputSize + 1) (by omega)
  obtain ⟨fuel, henough, hfuel⟩ : ∃ fuel, enough ≤ fuel ∧
      text.length + lineOutputSize + (sedFlags flags).numeric + 1 ≤ fuel :=
    ⟨_, Nat.le_max_left _ _, Nat.le_max_right _ _⟩
  have hline : ∀ line ∈ words [newline] text, sedLine fuel pattern replacement (sedFlags flags) line =
      some ((sedLine fuel pattern replacement (sedFlags flags) line).getD []) := by
    intro line hline
    obtain ⟨out, hout⟩ := sedLine_exists replacement hpattern hline hfuel
    rw [hout, Option.getD_some]
  refine ⟨fuel, _, hline, ?_⟩
  have hfit := length_intercalate_map_le fun line hin =>
    Nat.lt_of_le_of_lt (sedLine_bounded (hline line hin)).1 (by decide)
  have hcode := substitute_settles hzero (by omega) hline
    (Nat.lt_succ_of_le (hfit.trans (Nat.le_add_left _ (endedLines newline lines).length)))
  rw [← hlines, Option.some.inj (Except.ok.inj (hcode.symm.trans (hrun fuel henough)))]

theorem joined_words {lines : List Bytes} {g : Bytes → Bytes}
    (hfree : ∀ line ∈ (words [newline] text).map g, newline ∉ line)
    (hfree' : ∀ line ∈ lines, newline ∉ line)
    (hlength : (linesOf newline text).length = lines.length)
    (h : linesOf newline ([newline].intercalate ((words [newline] text).map g)) =
      linesOf newline (endedLines newline lines)) :
    words [newline] text = linesOf newline text ∧ (linesOf newline text).map g = lines ∧
      lines.getLast? ≠ some [] := by
  rw [linesOf_endedLines hfree', linesOf_intercalate hfree] at h
  split at h
  · next hlast =>
    have hne : (words [newline] text).map g ≠ [] := by
      intro hnil
      rw [hnil] at hlast
      cases hlast
    have hpos := List.length_pos_iff.mpr hne
    have hfewer := length_words_le newline text
    have hshorter := congrArg List.length h
    rw [List.length_dropLast, List.length_map] at hshorter
    rw [List.length_map] at hpos
    omega
  · next hlast =>
    have hsame := congrArg List.length h
    rw [List.length_map] at hsame
    have hwords := words_eq_linesOf (length_words_eq_iff.mp (hsame.trans hlength.symm))
    exact ⟨hwords, hwords ▸ h, h ▸ hlast⟩

theorem substitutable_of_substitutes (hpattern : pattern ≠ []) (hzero : 0 ∉ text)
    (hnewline : newline ∉ replacement)
    (hfresh : digitFlag flags = none ∨ ∃ b ∈ replacement, b ∉ text)
    (h : SubstitutesText pattern replacement flags text) :
    TextSubstitutable pattern replacement flags text := by
  obtain ⟨lines, hsubstituted, hall⟩ := h
  obtain ⟨fuel, g, hline, hjoined⟩ := code_lines hpattern hzero hall
  have hfree : ∀ line ∈ (words [newline] text).map g, newline ∉ line := by
    intro line hin hnl
    obtain ⟨source, hsource, rfl⟩ := List.mem_map.mp hin
    rcases (sedLine_bounded (hline source hsource)).2 newline hnl with hmem | hmem
    · exact (words_plain hsource).2 hmem
    · exact hnewline hmem
  have hlines := forall₂_substituted hsubstituted
  have hfree' : ∀ line ∈ lines, newline ∉ line := by
    rw [hlines]
    intro line hin hnl
    obtain ⟨source, hsource, rfl⟩ := List.mem_map.mp hin
    rcases mem_substitutedLine hnl with hmem | hmem
    · exact not_mem_of_linesOf hsource hmem
    · exact hnewline hmem
  obtain ⟨hwords, hmap, hlast⟩ := joined_words hfree hfree' hsubstituted.length_eq hjoined
  rw [hwords] at hline
  have hcode : ∀ line ∈ linesOf newline text, g line = substitutedLine pattern replacement flags line :=
    List.map_inj_left.mp (hmap.trans hlines)
  rw [hlines, List.forall₂_map_right_iff, List.forall₂_same] at hsubstituted
  constructor
  · intro line hin
    have hne : line ≠ [] := (words_plain (hwords ▸ hin)).1
    have hrun := hline line hin
    rw [hcode line hin] at hrun
    refine substitutable_of_line hpattern hne (hfresh.imp_right ?_) hrun (hsubstituted line hin)
    rintro ⟨b, hb, hout⟩
    exact ⟨b, hb, fun hmem => hout (mem_line hin b hmem).1⟩
  · intro line hin
    have hmem := List.mem_map_of_mem (f := substitutedLine pattern replacement flags)
      (List.mem_of_getLast? hin)
    rw [← hlines] at hmem
    have hne : substitutedLine pattern replacement flags line ≠ [] := by
      intro hnil
      refine hlast ?_
      rw [hlines, List.getLast?_map, hin, Option.map_some, hnil]
    have hword : EndsInWord [newline] ([] ++ substitutedLine pattern replacement flags line) :=
      endsInWord_append_word hne (fun c hc => by
        simpa using ne_of_mem_of_not_mem hc (hfree' _ hmem)) []
    exact hword

end Text

section Main

theorem text_substituted_iff (pattern replacement flags text : Bytes) (hpattern : pattern ≠ [])
    (hzero : 0 ∉ text) :
    (TextSubstitutable pattern replacement flags text → SubstitutesText pattern replacement flags text) ∧
      (newline ∉ replacement → (digitFlag flags = none ∨ ∃ b ∈ replacement, b ∉ text) →
        (SubstitutesText pattern replacement flags text ↔
          TextSubstitutable pattern replacement flags text)) := by
  refine ⟨substitutes_of_substitutable hpattern hzero, fun hnewline hfresh => ⟨?_, ?_⟩⟩
  · exact substitutable_of_substitutes hpattern hzero hnewline hfresh
  · exact substitutes_of_substitutable hpattern hzero

theorem text_substituted_first :
    SubstitutesText (str "an") (str "AN") [] (str "banana\nmango\n") ∧
      (SubstitutesText (str "an") (str "AN") [] (str "banana\nmango\n") ↔
        TextSubstitutable (str "an") (str "AN") [] (str "banana\nmango\n")) := by
  have h := text_substituted_iff (str "an") (str "AN") [] (str "banana\nmango\n") (by decide) (by decide)
  have hlines : ∀ line ∈ linesOf newline (str "banana\nmango\n"), line ≠ [] ∧
      (substitutedLine (str "an") (str "AN") [] line).length ≤ lineOutputSize - 1 := by decide
  have hdone : TextSubstitutable (str "an") (str "AN") [] (str "banana\nmango\n") := by
    constructor
    · exact fun line hline =>
        ⟨(hlines line hline).1, (hlines line hline).2, fun _ hdigit => by cases hdigit⟩
    · intro line hlast
      obtain rfl : str "mango" = line := Option.some.inj hlast
      exact ⟨111, by decide, by decide⟩
  exact ⟨h.1 hdone, h.2 (by decide) (.inl rfl)⟩

theorem text_substituted_wrongly : ¬ SubstitutesText (str "a") (str "X") [] (str "a\n\nb\n") ∧
    ¬ SubstitutesText (str "aa") (str "X") (str "2") (str "aaaa\n") := by
  constructor
  · intro h
    have hdone := substitutable_of_substitutes (by decide) (by decide) (by decide) (.inl rfl) h
    exact (hdone.lines [] (by decide)).not_blank rfl
  · intro h
    have hdone := substitutable_of_substitutes (by decide) (by decide) (by decide)
      (.inr ⟨88, by decide, by decide⟩) h
    have hcounted := (hdone.lines (str "aaaa") (by decide)).counted 2 (by decide)
    rw [CountsRight, if_neg (by decide)] at hcounted
    rcases hcounted with hsame | ⟨hnone, _⟩
    · exact absurd hsame (by decide)
    · exact absurd hnone (by decide)

end Main

end ZoraVM.Unix
