import ZoraVM.Unix.SedLine
import ZoraVM.Unix.SedOutput

namespace ZoraVM.Unix

open Foundation

section Source

-- strstr(src, pattern) is src where the pattern is what src starts with.
def substituteLoop (pattern replacement : Bytes) : Nat → Bytes → Bytes → Nat → Option Bytes
  | 0, _, _, _ => none
  | _ + 1, [], out, _ => some out
  | fuel + 1, c :: src, out, remaining =>
    if remaining = 0 then some out
    else if pattern.isPrefixOf (c :: src) then
      if replacement.length ≤ remaining then
        substituteLoop pattern replacement fuel ((c :: src).drop pattern.length)
          (out ++ replacement) (remaining - replacement.length)
      else some out
    else substituteLoop pattern replacement fuel src (out ++ [c]) (remaining - 1)

def unixSedSubstitute (fuel : Nat) (pattern replacement input : Bytes) (outputSize : Nat) :
    Outcome (Option Bytes) := do
  let src ← cstring input
  match substituteLoop pattern replacement fuel src [] (sedStart outputSize).remaining with
  | none => .ok none
  | some out => if out.length < outputSize then .ok (some out) else .error .bufferOverflow

end Source

section Statements

def Substituting (pattern replacement text : Bytes) (outputSize : Nat) : Prop :=
  pattern ≠ [] ∨ replacement ≠ [] ∨ text = [] ∨ outputSize = 1

-- A digit other than 0 bounds the number of replacements.
def SubstitutingLines (pattern replacement flags text : Bytes) (outputSize : Nat) : Prop :=
  pattern ≠ [] ∨ replacement ≠ [] ∨ (sedFlags flags).global = false ∨ 0 < (sedFlags flags).numeric ∨
    (∀ c ∈ text, c = newline) ∨ outputSize = 1

end Statements

section Plain

variable {pattern replacement src out text : Bytes} {c : UInt8} {fuel remaining outputSize : Nat}

theorem length_drop_pattern_lt (c : UInt8) (src : Bytes) (hne : pattern ≠ []) :
    ((c :: src).drop pattern.length).length < (c :: src).length := by
  have hpos := List.length_pos_iff.mpr hne
  rw [List.length_drop, List.length_cons]
  omega

theorem substituteLoop_ends (h : pattern ≠ [] ∨ replacement ≠ [])
    (hfuel : src.length + remaining < fuel) :
    substituteLoop pattern replacement fuel src out remaining ≠ none := by
  induction fuel generalizing src out remaining with
  | zero => omega
  | succ fuel ih =>
    cases src with
    | nil => exact Option.some_ne_none out
    | cons c src =>
      rw [substituteLoop]
      split
      · exact Option.some_ne_none out
      · split
        · split
          · -- The input gets shorter, or the room for the output does.
            refine ih ?_
            rcases h with hne | hne
            · have hshorter := length_drop_pattern_lt c src hne
              omega
            · have hpos := List.length_pos_iff.mpr hne
              rw [List.length_drop]
              omega
          · exact Option.some_ne_none out
        · refine ih ?_
          rw [List.length_cons] at hfuel
          omega

theorem substituteLoop_stuck (hne : src ≠ []) (hroom : remaining ≠ 0) (fuel : Nat) :
    substituteLoop [] [] fuel src out remaining = none := by
  induction fuel generalizing out with
  | zero => rfl
  | succ fuel ih =>
    obtain ⟨c, src, rfl⟩ := List.exists_cons_of_ne_nil hne
    have hfit : ([] : Bytes).length ≤ remaining := Nat.zero_le remaining
    rw [substituteLoop, if_neg hroom, if_pos List.isPrefixOf_nil_left, if_pos hfit]
    exact ih

theorem unixSedSubstitute_eq_none (hzero : 0 ∉ text) :
    unixSedSubstitute fuel pattern replacement (text ++ [0]) outputSize = .ok none ↔
      substituteLoop pattern replacement fuel text [] (sedStart outputSize).remaining = none := by
  rw [unixSedSubstitute, cstring_ended hzero]
  simp only [bind, Except.bind]
  cases substituteLoop pattern replacement fuel text [] (sedStart outputSize).remaining with
  | none => simp
  | some out =>
    constructor
    · intro h
      simp only at h
      split at h <;> cases h
    · exact fun h => absurd h (Option.some_ne_none out)

theorem remaining_eq_zero_iff : (sedStart outputSize).remaining = 0 ↔ outputSize = 1 := by
  unfold sedStart
  by_cases hsize : outputSize = 0
  · simp [hsize]
  · simp only [hsize, if_false]
    omega

theorem substitute_ends_iff (hzero : 0 ∉ text) :
    Ends (fun fuel => unixSedSubstitute fuel pattern replacement (text ++ [0]) outputSize) ↔
      Substituting pattern replacement text outputSize := by
  simp only [Ends, ne_eq, unixSedSubstitute_eq_none hzero]
  constructor
  · rintro ⟨enough, hends⟩
    by_contra hnot
    simp only [Substituting, not_or, not_not] at hnot
    obtain ⟨rfl, rfl, htext, hsize⟩ := hnot
    exact hends enough (Nat.le_refl enough)
      (substituteLoop_stuck htext (mt remaining_eq_zero_iff.mp hsize) enough)
  · intro h
    refine ⟨text.length + (sedStart outputSize).remaining + 1, fun fuel hfuel => ?_⟩
    rcases h with hne | hne | rfl | hsize
    · exact substituteLoop_ends (.inl hne) hfuel
    · exact substituteLoop_ends (.inr hne) hfuel
    · obtain ⟨fuel, rfl⟩ : ∃ k, fuel = k + 1 := ⟨fuel - 1, by omega⟩
      exact Option.some_ne_none []
    · obtain ⟨fuel, rfl⟩ : ∃ k, fuel = k + 1 := ⟨fuel - 1, by omega⟩
      rw [remaining_eq_zero_iff.mpr hsize]
      cases text <;> exact Option.some_ne_none []

end Plain

section Lines

variable {pattern replacement src out text line flagText : Bytes} {flags : SedFlags}
variable {fuel k outputSize : Nat}

-- The rest of the line, the room in line_output, and the matches left until the last one counts.
theorem sedLineLoop_ends (h : pattern ≠ [] ∨ replacement ≠ [] ∨ flags.global = false ∨ 0 < flags.numeric)
    (hcount : 0 < flags.numeric → k < flags.numeric)
    (hfuel : src.length + (lineOutputSize - 1 - out.length) + (flags.numeric - k) < fuel) :
    sedLineLoop pattern replacement flags fuel src out k ≠ none := by
  induction fuel generalizing src out k with
  | zero => omega
  | succ fuel ih =>
    rcases Nat.lt_or_ge out.length (lineOutputSize - 1) with hroom | hfull
    · cases src with
      | nil => exact Option.some_ne_none _
      | cons c src =>
        rw [List.length_cons] at hfuel
        rcases sedLineLoop_cons pattern replacement flags fuel k hroom c src with
          ⟨_, hturn⟩ | ⟨_, hchosen, hturn⟩ | ⟨_, _, _, hturn⟩ | ⟨_, _, _, _, hturn⟩ |
          ⟨_, hchosen, hfit, hfinal, hturn⟩ <;> rw [hturn]
        · refine ih hcount ?_
          rw [List.length_append, List.length_singleton]
          omega
        · refine ih (more_of_not_chosen hcount hchosen) ?_
          rw [List.length_append, List.length_singleton]
          omega
        · exact Option.some_ne_none _
        · exact Option.some_ne_none _
        · have hmore := more_of_not_final hcount hfinal
          refine ih hmore ?_
          rw [List.length_append]
          have hshort := (List.drop_sublist pattern.length (c :: src)).length_le
          rw [List.length_cons] at hshort
          rcases h with hne | hne | hglobal | hpos
          · have hshorter := length_drop_pattern_lt c src hne
            rw [List.length_cons] at hshorter
            omega
          · have hpos := List.length_pos_iff.mpr hne
            omega
          · have hpos : 0 < flags.numeric :=
              Nat.pos_of_ne_zero fun hzero => hfinal (.inl ⟨hglobal, hzero⟩)
            have hlt := hmore hpos
            omega
          · have hlt := hmore hpos
            omega
    · rw [sedLineLoop_full hfull]
      exact Option.some_ne_none _

theorem matchesHere_nil (flags : SedFlags) (src : Bytes) : matchesHere flags [] src = true := by
  cases hcase : flags.ignoreCase <;> simp [matchesHere, hcase]

theorem sedLineLoop_stuck (hglobal : flags.global = true) (hnumeric : flags.numeric = 0)
    (hne : src ≠ []) (hroom : out.length < lineOutputSize - 1) (fuel : Nat) :
    sedLineLoop [] [] flags fuel src out k = none := by
  induction fuel generalizing out k with
  | zero => rfl
  | succ fuel ih =>
    obtain ⟨c, src, rfl⟩ := List.exists_cons_of_ne_nil hne
    rcases sedLineLoop_cons [] [] flags fuel k hroom c src with ⟨hmatch, _⟩ | ⟨_, hchosen, _⟩ |
      ⟨_, _, hfull, _⟩ | ⟨_, _, _, hfinal, _⟩ | ⟨_, _, _, _, hturn⟩
    · rw [matchesHere_nil] at hmatch
      cases hmatch
    · exact absurd (.inl hnumeric) hchosen
    · rw [List.length_nil] at hfull
      omega
    · rcases hfinal with ⟨hlocal, _⟩ | ⟨hpos, _⟩
      · rw [hglobal] at hlocal
        cases hlocal
      · omega
    · rw [hturn, List.append_nil]
      exact ih hroom

theorem sedLines_eq_none {body : SedOutput → Bytes → Option SedOutput} (hzero : 0 ∉ text)
    (hfuel : text.length < fuel) : sedLines fuel (text ++ [0]) outputSize body = .ok none ↔
      wordLoop SedOutput.more body (words [newline] text) (sedStart outputSize) = none := by
  have houtput : sedLines fuel (text ++ [0]) outputSize body = .ok none ↔
      outputOf (sedLines fuel (text ++ [0]) outputSize body) = .ok none := by
    unfold outputOf
    rcases sedLines fuel (text ++ [0]) outputSize body with e | (_ | p) <;> simp
  rw [houtput, sedLines_eq hzero hfuel]
  cases wordLoop SedOutput.more body (words [newline] text) (sedStart outputSize) with
  | none => simp [sedEnded]
  | some o =>
    rw [sedEnded]
    cases o.finish outputSize <;> simp

theorem sedLine_ends (h : pattern ≠ [] ∨ replacement ≠ [] ∨ flags.global = false ∨ 0 < flags.numeric)
    (hfuel : line.length + lineOutputSize + flags.numeric < fuel) :
    sedLine fuel pattern replacement flags line ≠ none := by
  have hloop : sedLineLoop pattern replacement flags fuel line [] 0 ≠ none := by
    refine sedLineLoop_ends h id ?_
    rw [List.length_nil]
    omega
  simpa [sedLine] using hloop

theorem substituteEnhanced_ends (hzero : 0 ∉ text)
    (h : SubstitutingLines pattern replacement flagText text outputSize) :
    Ends (fun fuel =>
      unixSedSubstituteEnhanced fuel pattern replacement flagText (text ++ [0]) outputSize) := by
  refine ⟨text.length + lineOutputSize + (sedFlags flagText).numeric + 1, fun fuel hfuel => ?_⟩
  show sedLines fuel (text ++ [0]) outputSize _ ≠ .ok none
  rw [ne_eq, sedLines_eq_none hzero (by omega)]
  have hlines : pattern ≠ [] ∨ replacement ≠ [] ∨ (sedFlags flagText).global = false ∨
      0 < (sedFlags flagText).numeric → wordLoop SedOutput.more (fun o line =>
        (sedLine fuel pattern replacement (sedFlags flagText) line).map fun text =>
          (o.separate).copy text) (words [newline] text) (sedStart outputSize) ≠ none := by
    intro hends
    refine wordLoop_ne_none (fun line hline st => ?_) _
    have hlength := length_word_le hline
    have hends' : sedLine fuel pattern replacement (sedFlags flagText) line ≠ none :=
      sedLine_ends hends (by omega)
    simpa using hends'
  rcases h with hne | hne | hglobal | hnumeric | hblank | hsize
  · exact hlines (.inl hne)
  · exact hlines (.inr (.inl hne))
  · exact hlines (.inr (.inr (.inl hglobal)))
  · exact hlines (.inr (.inr (.inr hnumeric)))
  · rw [words_eq_nil_iff.mpr fun c hc => by simpa using hblank c hc]
    exact Option.some_ne_none _
  · have hmore : ¬ (sedStart outputSize).more = true := by
      simp [SedOutput.more, remaining_eq_zero_iff.mpr hsize]
    cases words [newline] text with
    | nil => exact Option.some_ne_none _
    | cons line lines =>
      rw [wordLoop, if_neg hmore]
      exact Option.some_ne_none _

theorem substituting_of_ends (hzero : 0 ∉ text)
    (h : Ends (fun fuel =>
      unixSedSubstituteEnhanced fuel pattern replacement flagText (text ++ [0]) outputSize)) :
    SubstitutingLines pattern replacement flagText text outputSize := by
  obtain ⟨enough, hends⟩ := h
  by_contra hnot
  simp only [SubstitutingLines, not_or, not_not, Bool.not_eq_false, Nat.not_lt, Nat.le_zero] at hnot
  obtain ⟨rfl, rfl, hglobal, hnumeric, htext, hsize⟩ := hnot
  refine hends (max enough (text.length + 1)) (Nat.le_max_left _ _) ?_
  show sedLines _ (text ++ [0]) outputSize _ = .ok none
  rw [sedLines_eq_none hzero (by omega)]
  have hwords : words [newline] text ≠ [] := fun hnil => htext fun c hc => by
    simpa using words_eq_nil_iff.mp hnil c hc
  obtain ⟨line, lines, hline⟩ := List.exists_cons_of_ne_nil hwords
  have hne : line ≠ [] := (words_plain (hline ▸ List.mem_cons_self)).1
  have hmore : (sedStart outputSize).more = true := by
    simpa [SedOutput.more, Nat.pos_iff_ne_zero] using mt remaining_eq_zero_iff.mp hsize
  have hstuck : ∀ fuel, sedLine fuel [] [] (sedFlags flagText) line = none := fun fuel => by
    rw [sedLine, sedLineLoop_stuck hglobal hnumeric hne (by decide)]
    rfl
  rw [hline, wordLoop, if_pos hmore, hstuck]
  rfl

end Lines

section Main

theorem substitution_ends_iff (pattern replacement flags text : Bytes) (outputSize : Nat)
    (hzero : 0 ∉ text) :
    (Ends (fun fuel => unixSedSubstitute fuel pattern replacement (text ++ [0]) outputSize) ↔
      Substituting pattern replacement text outputSize) ∧
    (Ends (fun fuel =>
        unixSedSubstituteEnhanced fuel pattern replacement flags (text ++ [0]) outputSize) ↔
      SubstitutingLines pattern replacement flags text outputSize) :=
  ⟨substitute_ends_iff hzero, substituting_of_ends hzero, substituteEnhanced_ends hzero⟩

theorem empty_pattern_ends : Ends (fun fuel =>
    unixSedSubstituteEnhanced fuel [] (str "x") (str "g") (str "a\n" ++ [0]) 9) :=
  (substitution_ends_iff [] (str "x") (str "g") (str "a\n") 9 (by decide)).2.mpr
    (.inr (.inl (by decide)))

theorem empty_substitution_runs_on :
    ¬ (Ends (fun fuel => unixSedSubstitute fuel [] [] (str "a\n" ++ [0]) 9) ∧
      Ends (fun fuel => unixSedSubstituteEnhanced fuel [] [] (str "g") (str "a\n" ++ [0]) 9)) := by
  rintro ⟨-, hends⟩
  have hlines := substituting_of_ends (by decide) hends
  revert hlines
  simp only [SubstitutingLines]
  decide

end Main

end ZoraVM.Unix
