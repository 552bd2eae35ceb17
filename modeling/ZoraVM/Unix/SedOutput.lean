import ZoraVM.Foundation.CInt
import ZoraVM.Foundation.Lines
import ZoraVM.Foundation.WordLoop
import ZoraVM.Unix.TextProc

namespace ZoraVM.Unix

open Foundation

section Output

variable {o o' : SedOutput} {room : Nat} {written : List Bytes} {line : Bytes}

-- The lines written so far, and the room that is left of all there was.
structure SedOutput.Holds (o : SedOutput) (room : Nat) (written : List Bytes) : Prop where
  text : o.text = [newline].intercalate written
  space : o.text.length + o.remaining = room
  first : o.first = written.isEmpty

theorem holds_start {outputSize : Nat} (h : 0 < outputSize) :
    (sedStart outputSize).Holds (outputSize - 1) [] := by
  have hne : outputSize ≠ 0 := by omega
  exact ⟨rfl, by simp [sedStart, hne], rfl⟩

theorem separate_of_first (h : o.first = true) : o.separate = { o with first := false } := by
  simp [SedOutput.separate, h]

theorem separate_of_room (hfirst : o.first = false) (hmore : 0 < o.remaining) :
    o.separate = { o with text := o.text ++ [newline], remaining := o.remaining - 1 } := by
  simp [SedOutput.separate, SedOutput.more, hfirst, hmore]

theorem endLine_eq_separate (hfirst : o.first = false) : o.endLine = o.separate := by
  by_cases hmore : 0 < o.remaining
  · rw [separate_of_room hfirst hmore]
    simp [SedOutput.endLine, SedOutput.more, hmore]
  · simp [SedOutput.endLine, SedOutput.separate, SedOutput.more, hmore, ← hfirst]

@[simp] theorem lineNumber_separate (o : SedOutput) : o.separate.lineNumber = o.lineNumber := by
  unfold SedOutput.separate
  split <;> rfl

@[simp] theorem lineNumber_copy (o : SedOutput) (line : Bytes) :
    (o.copy line).lineNumber = o.lineNumber := by
  unfold SedOutput.copy
  split <;> rfl

@[simp] theorem lineNumber_endLine (o : SedOutput) : o.endLine.lineNumber = o.lineNumber := by
  unfold SedOutput.endLine
  split <;> rfl

theorem SedOutput.Holds.withLineNumber (h : o.Holds room written) (n : Nat) :
    { o with lineNumber := n }.Holds room written := ⟨h.text, h.space, h.first⟩

theorem SedOutput.Holds.more (h : o.Holds room written)
    (hlt : ([newline].intercalate written).length < room) : o.more = true := by
  have hspace := h.space
  rw [h.text] at hspace
  simp only [SedOutput.more, decide_eq_true_eq]
  omega

theorem SedOutput.Holds.separate_copy (h : o.Holds room written)
    (hfit : ([newline].intercalate (written ++ [line])).length ≤ room) :
    (o.separate.copy line).Holds room (written ++ [line]) := by
  obtain ⟨htext, hspace, hfirst⟩ := h
  by_cases hne : written = []
  · subst hne
    have hline : line.length ≤ o.remaining := by
      simp only [List.nil_append, List.intercalate_singleton, htext, List.intercalate_nil,
        List.length_nil] at hfit hspace
      omega
    rw [separate_of_first hfirst, SedOutput.copy, if_pos hline]
    refine ⟨by simp [htext], ?_, rfl⟩
    simp only [List.length_append]
    omega
  · have hfirst' : o.first = false := by rw [hfirst]; simpa using hne
    rw [intercalate_concat hne, List.length_append, List.length_cons, ← htext] at hfit
    have hline : line.length ≤ o.remaining - 1 := by omega
    rw [separate_of_room hfirst' (by omega), SedOutput.copy, if_pos hline]
    refine ⟨?_, ?_, ?_⟩
    · rw [intercalate_concat hne, ← htext, List.append_assoc]
      rfl
    · simp only [List.length_append, List.length_singleton]
      omega
    · rw [hfirst']
      simp

theorem SedOutput.Holds.endLine_copy (h : o.Holds room written) (hne : written ≠ [])
    (hfit : ([newline].intercalate (written ++ [line])).length ≤ room) :
    (o.endLine.copy line).Holds room (written ++ [line]) := by
  have hfirst : o.first = false := by
    rw [h.first]
    simpa using hne
  rw [endLine_eq_separate hfirst]
  exact h.separate_copy hfit

theorem copy_nil (o : SedOutput) : o.copy [] = o := by simp [SedOutput.copy]

theorem SedOutput.Holds.endLine (h : o.Holds room written) (hne : written ≠ [])
    (hfit : ([newline].intercalate (written ++ [[]])).length ≤ room) :
    o.endLine.Holds room (written ++ [[]]) := by
  have hcopied := h.endLine_copy hne hfit
  rwa [copy_nil] at hcopied

theorem prefix_separate (o : SedOutput) : o.text <+: o.separate.text := by
  unfold SedOutput.separate
  split
  · exact List.prefix_append _ _
  · exact List.prefix_rfl

theorem prefix_copy (o : SedOutput) (line : Bytes) : o.text <+: (o.copy line).text := by
  unfold SedOutput.copy
  split
  · exact List.prefix_append _ _
  · exact List.prefix_rfl

theorem prefix_endLine (o : SedOutput) : o.text <+: o.endLine.text := by
  unfold SedOutput.endLine
  split
  · exact List.prefix_append _ _
  · exact List.prefix_rfl

end Output

section Emitting

variable {next : Nat → Nat} {emit : Nat → Bytes → List Bytes} {room k : Nat} {o : SedOutput}
variable {written lines : List Bytes} {body : SedOutput → Bytes → Option SedOutput}

def emitted (next : Nat → Nat) (emit : Nat → Bytes → List Bytes) : Nat → List Bytes → List Bytes
  | _, [] => []
  | k, line :: lines => emit k line ++ emitted next emit (next k) lines

-- What one turn of the loop writes where there is room for it.
def Emits (room : Nat) (next : Nat → Nat) (emit : Nat → Bytes → List Bytes)
    (body : SedOutput → Bytes → Option SedOutput) (line : Bytes) : Prop :=
  ∀ o written, SedOutput.Holds o room written →
    ([newline].intercalate (written ++ emit o.lineNumber line)).length ≤ room →
    ∃ o', body o line = some o' ∧ o'.Holds room (written ++ emit o.lineNumber line) ∧
      o'.lineNumber = next o.lineNumber

theorem wordLoop_emits (hbody : ∀ line ∈ lines, Emits room next emit body line)
    (h : o.Holds room written)
    (hfit : ([newline].intercalate (written ++ emitted next emit o.lineNumber lines)).length ≤ room) :
    ∃ o', wordLoop SedOutput.more body lines o = some o' ∧
      o'.text = [newline].intercalate (written ++ emitted next emit o.lineNumber lines) ∧
      ∃ turns ≤ lines.length, o'.lineNumber = next^[turns] o.lineNumber := by
  induction lines generalizing o written with
  | nil => exact ⟨o, rfl, by simpa [emitted] using h.text, 0, Nat.le_refl 0, rfl⟩
  | cons line lines ih =>
    by_cases hmore : o.more = true
    · rw [emitted, ← List.append_assoc] at hfit ⊢
      have hline := (length_intercalate_le newline _ _).trans hfit
      obtain ⟨o', hcall, hholds, hnumber⟩ := hbody line List.mem_cons_self o written h hline
      rw [← hnumber] at hfit ⊢
      obtain ⟨last, hloop, htext, turns, hturns, hlast⟩ :=
        ih (fun l hl => hbody l (List.mem_cons_of_mem line hl)) hholds hfit
      refine ⟨last, by rw [wordLoop, if_pos hmore, hcall]; exact hloop, htext, turns + 1,
        Nat.succ_le_succ hturns, ?_⟩
      rw [hlast, hnumber]
      rfl
    · -- There is no room for a single byte more, so what follows writes none.
      obtain ⟨behind, hbehind⟩ :=
        intercalate_prefix newline written (emitted next emit o.lineNumber (line :: lines))
      have hfull : o.remaining = 0 := by simpa [SedOutput.more] using hmore
      have hspace := h.space
      rw [hbehind, List.length_append, ← h.text] at hfit
      obtain rfl : behind = [] := List.length_eq_zero_iff.mp (by omega)
      exact ⟨o, by rw [wordLoop, if_neg hmore], by rw [hbehind, h.text, List.append_nil], 0,
        Nat.zero_le _, rfl⟩

theorem wordLoop_holds (hbody : ∀ line ∈ lines, Emits room next emit body line)
    (h : o.Holds room written)
    (hfit : ([newline].intercalate (written ++ emitted next emit o.lineNumber lines)).length < room) :
    ∃ o', wordLoop SedOutput.more body lines o = some o' ∧
      o'.Holds room (written ++ emitted next emit o.lineNumber lines) ∧
      o'.lineNumber = next^[lines.length] o.lineNumber := by
  induction lines generalizing o written with
  | nil => exact ⟨o, rfl, by simpa [emitted] using h, rfl⟩
  | cons line lines ih =>
    have hmore : o.more = true := h.more ((length_intercalate_le newline written _).trans_lt hfit)
    rw [emitted, ← List.append_assoc] at hfit ⊢
    have hline := (length_intercalate_le newline _ _).trans hfit.le
    obtain ⟨o', hcall, hholds, hnumber⟩ := hbody line List.mem_cons_self o written h hline
    rw [← hnumber] at hfit ⊢
    obtain ⟨last, hloop, hlast, hnumbers⟩ :=
      ih (fun l hl => hbody l (List.mem_cons_of_mem line hl)) hholds hfit
    refine ⟨last, by rw [wordLoop, if_pos hmore, hcall]; exact hloop, hlast, ?_⟩
    rw [hnumbers, hnumber]
    rfl

theorem emitted_append (next : Nat → Nat) (emit : Nat → Bytes → List Bytes) (k : Nat)
    (front behind : List Bytes) : emitted next emit k (front ++ behind) =
      emitted next emit k front ++ emitted next emit (next^[front.length] k) behind := by
  induction front generalizing k with
  | nil => rfl
  | cons line front ih =>
    rw [List.cons_append, emitted, emitted, ih, List.append_assoc]
    rfl

theorem wordLoop_counts {line : Bytes} (hbody : ∀ l ∈ lines ++ [line], Emits room next emit body l)
    (h : o.Holds room written)
    (hfront : ([newline].intercalate (written ++ emitted next emit o.lineNumber lines)).length < room)
    (hfit : ([newline].intercalate
      (written ++ emitted next emit o.lineNumber (lines ++ [line]))).length ≤ room) :
    ∃ o', wordLoop SedOutput.more body (lines ++ [line]) o = some o' ∧
      o'.lineNumber = next^[lines.length + 1] o.lineNumber := by
  obtain ⟨o₁, hloop, hholds, hnumber⟩ :=
    wordLoop_holds (fun l hl => hbody l (List.mem_append_left _ hl)) h hfront
  rw [emitted_append, ← hnumber, ← List.append_assoc, emitted, emitted, List.append_nil] at hfit
  obtain ⟨o₂, hcall, -, hlast⟩ := hbody line (by simp) o₁ _ hholds hfit
  refine ⟨o₂, ?_, ?_⟩
  · rw [wordLoop_append, hloop, Option.bind_some, wordLoop, if_pos (hholds.more hfront), hcall]
    rfl
  · rw [hlast, hnumber, Function.iterate_succ_apply']

end Emitting

section Running

variable {text : Bytes} {outputSize fuel : Nat} {body : SedOutput → Bytes → Option SedOutput}

def outputOf {ε : Type} (call : Except ε SedText) : Except ε (Option Bytes) :=
  Option.map Prod.fst <$> call

def sedEnded (outputSize : Nat) : Option SedOutput → Outcome (Option Bytes)
  | none => .ok none
  | some o => some <$> o.finish outputSize

theorem sedLines_eq (hzero : 0 ∉ text) (hfuel : text.length < fuel) (outputSize : Nat)
    (body : SedOutput → Bytes → Option SedOutput) :
    outputOf (sedLines fuel (text ++ [0]) outputSize body) = sedEnded outputSize
      (wordLoop SedOutput.more body (words [newline] text) (sedStart outputSize)) := by
  have hwords : (words [newline] text).length < fuel :=
    ((length_words_le newline text).trans (length_linesOf_le newline text)).trans_lt hfuel
  obtain ⟨t, hrun⟩ := forTokens_words (show 0 ∉ [newline] by decide) hzero hwords SedOutput.more body
    (sedStart outputSize) []
  rw [sedLines, hrun]
  cases wordLoop SedOutput.more body (words [newline] text) (sedStart outputSize) with
  | none => rfl
  | some o =>
    simp only [bind, Except.bind, loopEnd, Option.map_some, sedEnded]
    cases o.finish outputSize <;> rfl

theorem finish_ok {o : SedOutput} (h : o.text.length < outputSize) :
    o.finish outputSize = .ok o.text := if_pos h

theorem sedLines_emits {next : Nat → Nat} {emit : Nat → Bytes → List Bytes} (hzero : 0 ∉ text)
    (hfuel : text.length < fuel)
    (hbody : ∀ line ∈ words [newline] text, Emits (outputSize - 1) next emit body line)
    (hfit : ([newline].intercalate (emitted next emit 1 (words [newline] text))).length <
      outputSize) :
    outputOf (sedLines fuel (text ++ [0]) outputSize body) =
      .ok (some ([newline].intercalate (emitted next emit 1 (words [newline] text)))) := by
  have hpos : 0 < outputSize := by omega
  obtain ⟨o, hloop, htext, -⟩ := wordLoop_emits hbody (holds_start hpos)
    (show ([newline].intercalate ([] ++ emitted next emit 1 (words [newline] text))).length ≤
      outputSize - 1 by rw [List.nil_append]; omega)
  have htext' : o.text = [newline].intercalate (emitted next emit 1 (words [newline] text)) := htext
  rw [← htext'] at hfit ⊢
  rw [sedLines_eq hzero hfuel, hloop, sedEnded, finish_ok hfit]
  rfl

theorem length_lt_of_sedEnded {output : Bytes} {ended : Option SedOutput}
    (h : sedEnded outputSize ended = .ok (some output)) :
    output.length < outputSize ∧ ∃ o, ended = some o ∧ o.text = output := by
  cases ended with
  | none => cases h
  | some o =>
    obtain ⟨written, hfinish, hdone⟩ := Outcome.map_eq_ok.mp h
    obtain rfl := Option.some.inj hdone
    unfold SedOutput.finish at hfinish
    split at hfinish
    · next hlt =>
      obtain rfl := Except.ok.inj hfinish
      exact ⟨hlt, o, rfl, rfl⟩
    · cases hfinish

theorem settled_fits {output : Bytes} (hzero : 0 ∉ text)
    (h : Settles (fun fuel => outputOf (sedLines fuel (text ++ [0]) outputSize body)) output) :
    output.length < outputSize ∧
      ∃ o, wordLoop SedOutput.more body (words [newline] text) (sedStart outputSize) = some o ∧
        o.text = output := by
  obtain ⟨enough, h⟩ := h
  have hrun := h (max enough (text.length + 1)) (Nat.le_max_left _ _)
  simp only at hrun
  rw [sedLines_eq hzero (Nat.le_max_right _ _)] at hrun
  exact length_lt_of_sedEnded hrun

end Running

section Numbered

variable {text input output : Bytes} {outputSize fuel : Nat} {emit : Nat → Bytes → List Bytes}
variable {body : SedOutput → Bytes → Option SedOutput}

-- line_number is an int that only grows, so its last value tells whether it has overflowed.
def numberedLines (fuel : Nat) (input : Bytes) (outputSize : Nat)
    (body : SedOutput → Bytes → Option SedOutput) : Checked SedText := do
  match ← Checked.of (forTokens [newline] SedOutput.more
    (fun o line t => .ok ((body o line).map (·, t))) fuel (sedStart outputSize) input) with
  | none => .ok none
  | some (o, t) =>
    let _ ← checkedNat o.lineNumber
    let output ← Checked.of (o.finish outputSize)
    .ok (some (output, t.text))

theorem sedLines_of_numberedLines {result : SedText}
    (h : numberedLines fuel input outputSize body = .ok result) :
    sedLines fuel input outputSize body = .ok result := by
  obtain ⟨ended, hloop, hrest⟩ := Outcome.bind_eq_ok.mp h
  rw [sedLines, checkedOf_eq_ok.mp hloop]
  rcases ended with - | ⟨o, t⟩
  · exact congrArg Except.ok (Except.ok.inj hrest)
  · obtain ⟨_, -, hwrite⟩ := Outcome.bind_eq_ok.mp hrest
    exact bind_of_checked hwrite

theorem settles_of_numbered
    (h : Settles (fun fuel => outputOf (numberedLines fuel input outputSize body)) output) :
    Settles (fun fuel => outputOf (sedLines fuel input outputSize body)) output := by
  obtain ⟨enough, h⟩ := h
  refine ⟨enough, fun fuel hfuel => ?_⟩
  obtain ⟨result, hrun, hshown⟩ := Outcome.map_eq_ok.mp (h fuel hfuel)
  exact Outcome.map_eq_ok.mpr ⟨result, sedLines_of_numberedLines hrun, hshown⟩

theorem numberedLines_eq {o : SedOutput} (hzero : 0 ∉ text) (hfuel : text.length < fuel)
    (hloop : wordLoop SedOutput.more body (words [newline] text) (sedStart outputSize) = some o) :
    outputOf (numberedLines fuel (text ++ [0]) outputSize body) =
      checkedNat o.lineNumber >>= fun _ => Checked.of (some <$> o.finish outputSize) := by
  have hwords : (words [newline] text).length < fuel :=
    ((length_words_le newline text).trans (length_linesOf_le newline text)).trans_lt hfuel
  obtain ⟨t, hrun⟩ := forTokens_words (show 0 ∉ [newline] by decide) hzero hwords SedOutput.more body
    (sedStart outputSize) []
  rw [numberedLines, hrun, hloop]
  simp only [loopEnd, Option.map_some, Checked.of, Except.mapError, bind, Except.bind]
  cases checkedNat o.lineNumber with
  | error _ => rfl
  | ok _ => cases o.finish outputSize <;> rfl

theorem number_after (turns : Nat) : (· + 1)^[turns] 1 = 1 + turns := Nat.succ_iterate 1 turns

theorem numberedLines_emits (hzero : 0 ∉ text) (hfuel : text.length < fuel)
    (hfew : (words [newline] text).length < 2147483647)
    (hbody : ∀ line ∈ words [newline] text, Emits (outputSize - 1) (· + 1) emit body line)
    (hfit : ([newline].intercalate (emitted (· + 1) emit 1 (words [newline] text))).length <
      outputSize) :
    outputOf (numberedLines fuel (text ++ [0]) outputSize body) =
      .ok (some ([newline].intercalate (emitted (· + 1) emit 1 (words [newline] text)))) := by
  have hpos : 0 < outputSize := by omega
  obtain ⟨o, hloop, htext, turns, hturns, hnumber⟩ := wordLoop_emits hbody (holds_start hpos)
    (show ([newline].intercalate ([] ++ emitted (· + 1) emit 1 (words [newline] text))).length ≤
      outputSize - 1 by rw [List.nil_append]; omega)
  have htext' : o.text = [newline].intercalate (emitted (· + 1) emit 1 (words [newline] text)) := htext
  have hcount : o.lineNumber = 1 + turns := hnumber.trans (number_after turns)
  rw [← htext'] at hfit ⊢
  rw [numberedLines_eq hzero hfuel hloop, checkedNat_ok (by omega), finish_ok hfit]
  rfl

theorem numbered_overflows (hzero : 0 ∉ text)
    (hmany : 2147483647 ≤ (words [newline] text).length)
    (hbody : ∀ line ∈ words [newline] text, Emits (outputSize - 1) (· + 1) emit body line)
    (hfront : ∀ front line, words [newline] text = front ++ [line] → line ≠ [] →
      ([newline].intercalate (emitted (· + 1) emit 1 front)).length < outputSize - 1)
    (hfit : ([newline].intercalate (emitted (· + 1) emit 1 (words [newline] text))).length <
      outputSize) :
    ¬ Settles (fun fuel => outputOf (numberedLines fuel (text ++ [0]) outputSize body)) output := by
  rintro ⟨enough, h⟩
  have hne : words [newline] text ≠ [] := fun hnil => by
    rw [hnil] at hmany
    cases hmany
  obtain ⟨front, line, hsplit⟩ : ∃ front line, words [newline] text = front ++ [line] :=
    ⟨_, _, (List.dropLast_append_getLast hne).symm⟩
  have hmem : line ∈ words [newline] text := by simp [hsplit]
  have hroom := hfront front line hsplit (words_plain hmem).1
  have hrun := h (max enough (text.length + 1)) (Nat.le_max_left _ _)
  rw [hsplit] at hbody hfit hmany
  obtain ⟨o, hloop, hnumber⟩ := wordLoop_counts hbody (holds_start (by omega))
    (show ([newline].intercalate ([] ++ emitted (· + 1) emit 1 front)).length < outputSize - 1 by
      rwa [List.nil_append])
    (show ([newline].intercalate ([] ++ emitted (· + 1) emit 1 (front ++ [line]))).length ≤
      outputSize - 1 by rw [List.nil_append]; omega)
  have hcount : o.lineNumber = 1 + (front.length + 1) := hnumber.trans (number_after _)
  rw [List.length_append, List.length_singleton] at hmany
  rw [← hsplit] at hloop
  simp only [numberedLines_eq hzero (Nat.le_max_right _ _) hloop,
    checkedNat_overflow (show 2147483647 < o.lineNumber by omega)] at hrun
  cases hrun

theorem length_intercalate_lt {line : Bytes} (hne : line ≠ []) (written behind : List Bytes) :
    ([newline].intercalate written).length < ([newline].intercalate (written ++ line :: behind)).length := by
  have hpos := List.length_pos_iff.mpr hne
  have hline := length_intercalate_le newline (written ++ [line]) behind
  rw [List.append_assoc, List.singleton_append] at hline
  refine Nat.lt_of_lt_of_le ?_ hline
  by_cases hnil : written = []
  · simpa [hnil] using hpos
  · rw [intercalate_concat hnil, List.length_append, List.length_cons]
    omega

end Numbered

section Plain

variable {text line : Bytes} {lines : List Bytes}

theorem linesOf_plain (h : ∀ line ∈ lines, line ≠ [] ∧ newline ∉ line) :
    linesOf newline ([newline].intercalate lines) = lines := by
  rw [linesOf_intercalate fun line hline => (h line hline).2, if_neg]
  intro hlast
  exact (h [] (List.mem_of_getLast? hlast)).1 rfl

end Plain

end ZoraVM.Unix
