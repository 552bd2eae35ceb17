import ZoraVM.Editors.ShownText

namespace ZoraVM.Editors

open Foundation

inductive Edit where
  | insertLine (lineNum : Int)
  | deleteLine (lineNum : Int)
  | splitLine (lineNum position : Int)
  | insertChar (lineNum position : Int) (ch : UInt8)
  | deleteChar (lineNum position : Int)
  deriving DecidableEq, Repr

def runEdit (editor : EditorState) : Edit → Outcome (Int × EditorState)
  | .insertLine lineNum => editorInsertLine editor lineNum
  | .deleteLine lineNum => editorDeleteLine editor lineNum
  | .splitLine lineNum position => editorSplitLine editor lineNum position
  | .insertChar lineNum position ch => editorInsertChar editor lineNum position ch
  | .deleteChar lineNum position => editorDeleteChar editor lineNum position

def indexOf (bound : Nat) (i : Int) : Option Nat :=
  if 0 ≤ i ∧ i ≤ bound then some i.toNat else none

-- What the calls are for: a line or a place outside the text has no edit.
def textEdit (text : List Bytes) : Edit → Option (List Bytes)
  | .insertLine lineNum => do
    let n ← indexOf text.length lineNum
    some (text.insertIdx n [])
  | .deleteLine lineNum => do
    let n ← indexOf (text.length - 1) lineNum
    some (if text.length = 1 then [[]] else text.eraseIdx n)
  | .splitLine lineNum position => do
    let n ← indexOf (text.length - 1) lineNum
    let line ← text[n]?
    let k ← indexOf line.length position
    some ((text.set n (line.take k)).insertIdx (n + 1) (line.drop k))
  | .insertChar lineNum position ch => do
    let n ← indexOf (text.length - 1) lineNum
    let line ← text[n]?
    let k ← indexOf line.length position
    some (text.set n (line.insertIdx k ch))
  | .deleteChar lineNum position => do
    let n ← indexOf (text.length - 1) lineNum
    let line ← text[n]?
    let k ← indexOf line.length position
    if k < line.length then some (text.set n (line.eraseIdx k)) else none

section Places

variable {α : Type}

theorem insertIdx_append (front behind : List α) (x : α) :
    (front ++ behind).insertIdx front.length x = front ++ x :: behind := by
  induction front with
  | nil => simp
  | cons y front ih => simpa using ih

theorem indexOf_natCast {bound n : Nat} (h : n ≤ bound) : indexOf bound n = some n := by
  rw [indexOf, if_pos (by omega), Int.toNat_natCast]

theorem indexOf_eq_none {bound : Nat} {i : Int} (h : i < 0 ∨ i > bound) : indexOf bound i = none :=
  if_neg (by omega)

theorem outside_or_cut (xs : List α) (i : Int) :
    (i < 0 ∨ i > xs.length) ∨ ∃ front behind, xs = front ++ behind ∧ i = front.length := by
  rcases lt_or_ge i 0 with hneg | hnonneg
  · exact .inl (.inl hneg)
  rcases lt_or_ge (xs.length : Int) i with hbig | hle
  · exact .inl (.inr hbig)
  · refine .inr ⟨xs.take i.toNat, xs.drop i.toNat, (List.take_append_drop _ _).symm, ?_⟩
    rw [List.length_take]
    omega

theorem outside_or_at (xs : List α) (i : Int) :
    (i < 0 ∨ i ≥ xs.length) ∨ ∃ front x behind, xs = front ++ x :: behind ∧ i = front.length := by
  rcases outside_or_cut xs i with hout | ⟨front, behind, rfl, rfl⟩
  · exact .inl (by omega)
  cases behind with
  | nil => exact .inl (.inr (by simp))
  | cons x behind => exact .inr ⟨front, x, behind, rfl, rfl⟩

end Places

section TextEdits

variable (above below : List Bytes) (line front behind : Bytes) (x : UInt8)

theorem textEdit_insertLine :
    textEdit (above ++ below) (.insertLine above.length) = some (above ++ [] :: below) := by
  simp only [textEdit]
  rw [indexOf_natCast (by simp)]
  simp [insertIdx_append]

theorem textEdit_deleteLine (h : above ++ below ≠ []) :
    textEdit (above ++ line :: below) (.deleteLine above.length) = some (above ++ below) := by
  have hlen := List.length_pos_iff.mpr h
  rw [List.length_append] at hlen
  simp only [textEdit]
  rw [indexOf_natCast (by simp)]
  simp only [bind, Option.bind, List.length_append, List.length_cons]
  rw [if_neg (by omega), List.eraseIdx_append_of_length_le (Nat.le_refl _), Nat.sub_self,
    List.eraseIdx_cons_zero]

theorem textEdit_splitLine :
    textEdit (above ++ (front ++ behind) :: below) (.splitLine above.length front.length) =
      some (above ++ front :: behind :: below) := by
  simp only [textEdit]
  rw [indexOf_natCast (by simp)]
  simp only [bind, Option.bind, List.getElem?_append_right (Nat.le_refl _), Nat.sub_self,
    List.getElem?_cons_zero]
  rw [indexOf_natCast (by simp)]
  have hinsert := insertIdx_append (above ++ [front]) below behind
  simp only [List.length_append, List.length_singleton, List.append_assoc,
    List.singleton_append] at hinsert
  simp [hinsert]

theorem textEdit_insertChar :
    textEdit (above ++ (front ++ behind) :: below) (.insertChar above.length front.length x) =
      some (above ++ (front ++ x :: behind) :: below) := by
  simp only [textEdit]
  rw [indexOf_natCast (by simp)]
  simp only [bind, Option.bind, List.getElem?_append_right (Nat.le_refl _), Nat.sub_self,
    List.getElem?_cons_zero]
  rw [indexOf_natCast (by simp)]
  simp [insertIdx_append]

theorem textEdit_insertChar_behind {position : Nat} (h : line.length < position) :
    textEdit (above ++ line :: below) (.insertChar above.length position x) = none := by
  simp only [textEdit]
  rw [indexOf_natCast (by simp)]
  simp only [bind, Option.bind, List.getElem?_append_right (Nat.le_refl _), Nat.sub_self,
    List.getElem?_cons_zero]
  rw [indexOf_eq_none (by omega)]

theorem textEdit_deleteChar :
    textEdit (above ++ (front ++ x :: behind) :: below) (.deleteChar above.length front.length) =
      some (above ++ (front ++ behind) :: below) := by
  simp only [textEdit]
  rw [indexOf_natCast (by simp)]
  simp only [bind, Option.bind, List.getElem?_append_right (Nat.le_refl _), Nat.sub_self,
    List.getElem?_cons_zero]
  rw [indexOf_natCast (by simp)]
  simp [List.eraseIdx_append_of_length_le]

end TextEdits

namespace EditorState

def text (editor : EditorState) : List Bytes :=
  (editor.lines.take editor.lineCount).map fun entry => (entry.getD []).takeWhile (· ≠ 0)

end EditorState

structure WellFormed (editor : EditorState) : Prop where
  size : editor.lines.length = editor.maxLines
  count : 1 ≤ editor.lineCount ∧ editor.lineCount ≤ editor.maxLines
  buffers : ∀ entry ∈ editor.lines.take editor.lineCount,
    ∃ buffer, entry = some buffer ∧ buffer.length = editorMaxLineLength ∧ 0 ∈ buffer

section Abstraction

variable {editor : EditorState} {text : List Bytes}

theorem Shows.text_eq (h : Shows editor text) : editor.text = text := by
  obtain ⟨entries, spare, hlines, hheld⟩ := h.entries
  rw [EditorState.text, hlines, h.count, ← hheld.length_eq, List.take_left]
  clear hlines h
  induction hheld with
  | nil => rfl
  | @cons entry line entries text hentry _ ih =>
    obtain ⟨buffer, rfl, hbuffer⟩ := hentry
    have hcstring := hbuffer.cstring_eq
    rw [cstring] at hcstring
    split at hcstring
    · rw [List.map_cons, ih, Option.getD_some, Except.ok.inj hcstring]
    · cases hcstring

theorem Shows.wellFormed (h : Shows editor text) : WellFormed editor := by
  obtain ⟨entries, spare, hlines, hheld⟩ := h.entries
  have hcount := h.count
  have hlen := List.length_pos_iff.mpr h.nonempty
  refine ⟨h.size, ⟨by omega, h.lineCount_le⟩, ?_⟩
  rw [hlines, hcount, ← hheld.length_eq, List.take_left]
  clear hlines hcount hlen h
  induction hheld with
  | nil => simp
  | cons hentry _ ih =>
    obtain ⟨buffer, rfl, hbuffer⟩ := hentry
    obtain ⟨tail, htail⟩ := hbuffer.ended
    exact List.forall_mem_cons.mpr ⟨⟨buffer, rfl, hbuffer.size, by simp [htail]⟩, ih⟩

theorem WellFormed.shows (h : WellFormed editor) : Shows editor editor.text := by
  have hlen : (editor.lines.take editor.lineCount).length = editor.lineCount := by
    rw [List.length_take, h.size, Nat.min_eq_left h.count.2]
  refine ⟨?_, by rw [EditorState.text, List.length_map, hlen], h.size, editor.lines.take editor.lineCount,
    editor.lines.drop editor.lineCount, (List.take_append_drop _ _).symm, ?_⟩
  · rw [← List.length_pos_iff, EditorState.text, List.length_map, hlen]
    exact h.count.1
  · rw [EditorState.text, List.forall₂_map_right_iff, List.forall₂_same]
    intro entry hmem
    obtain ⟨buffer, rfl, hsize, hzero⟩ := h.buffers entry hmem
    exact ⟨buffer, rfl, .of_mem hsize hzero⟩

theorem create_shows (maxLines : Int) : Shows (editorCreate maxLines) [[]] := by
  have hmax : 1 ≤ (editorCreate maxLines).maxLines := by
    simp only [editorCreate]
    split
    · omega
    · decide
  refine ⟨by simp, rfl, ?_, [some blankLine], _, rfl, .cons ⟨blankLine, rfl, Spells.blank⟩ .nil⟩
  simp only [editorCreate, List.length_cons, List.length_replicate] at hmax ⊢
  omega

end Abstraction

section Refinement

variable {editor : EditorState} {text text' : List Bytes} {edit : Edit}

-- What the editor is for: a call that answers 0 edits the text, and one that answers -1 leaves it.
def Refines (editor : EditorState) (edit : Edit) : Prop :=
  ∃ result editor', runEdit editor edit = .ok (result, editor') ∧ WellFormed editor' ∧
    editor'.maxLines = editor.maxLines ∧ (∀ line ∈ editor'.text, line.length < editorMaxLineLength) ∧
    (result = 0 ∧ textEdit editor.text edit = some editor'.text ∨
      result = -1 ∧ editor'.text = editor.text)

def Accurate (text : List Bytes) : Edit → Prop
  | .insertChar lineNum position ch => ∀ (n k : Nat) (line : Bytes), lineNum = n → position = k →
      text[n]? = some line → k ≤ editorMaxLineLength - 2 → line.length < editorMaxLineLength - 1 →
      k ≤ line.length ∧ ch ≠ 0
  | _ => True

theorem Shows.length_lt (h : Shows editor text) {line : Bytes} (hline : line ∈ text) :
    line.length < editorMaxLineLength := by
  obtain ⟨above, below, rfl⟩ := List.append_of_mem hline
  obtain ⟨_, _, hbuffer⟩ := h.lineAt_eq
  exact hbuffer.length_lt

inductive Settled (editor : EditorState) (text : List Bytes) (edit : Edit) : Prop
  | refused : runEdit editor edit = .ok (-1, editor) → Accurate text edit → Settled editor text edit
  | answered {text' : List Bytes} : Answers (runEdit editor edit) editor text' →
      (textEdit text edit = some text' ↔ Accurate text edit) → Settled editor text edit

theorem settled_insertLine (h : Shows editor text) (lineNum : Int) :
    Settled editor text (.insertLine lineNum) := by
  have hcount := h.count
  rcases outside_or_cut text lineNum with hout | ⟨above, below, rfl, rfl⟩
  · exact .refused (if_pos (by omega)) trivial
  rcases lt_or_ge editor.lineCount editor.maxLines with hroom | hfull
  · exact .answered (h.insertLine hroom) (iff_of_true (textEdit_insertLine above below) trivial)
  · refine .refused ?_ trivial
    rw [List.length_append] at hcount
    exact (if_neg (by omega)).trans (if_pos hfull)

theorem settled_deleteLine (h : Shows editor text) (lineNum : Int) :
    Settled editor text (.deleteLine lineNum) := by
  have hcount := h.count
  rcases outside_or_at text lineNum with hout | ⟨above, line, below, rfl, rfl⟩
  · exact .refused (if_pos (by omega)) trivial
  by_cases hmore : above ++ below = []
  · obtain ⟨rfl, rfl⟩ := List.append_eq_nil_iff.mp hmore
    exact .answered h.deleteLine_only (iff_of_true rfl trivial)
  · exact .answered (h.deleteLine_more hmore)
      (iff_of_true (textEdit_deleteLine above below line hmore) trivial)

theorem settled_splitLine (h : Shows editor text) (lineNum position : Int) :
    Settled editor text (.splitLine lineNum position) := by
  have hcount := h.count
  rcases outside_or_at text lineNum with hout | ⟨above, line, below, rfl, rfl⟩
  · exact .refused (if_pos (by omega)) trivial
  obtain ⟨buffer, hline, hbuffer⟩ := h.lineAt_eq
  rw [List.length_append, List.length_cons] at hcount
  have hopen : runEdit editor (.splitLine above.length position) = _ := if_neg (by omega)
  simp only [hline, bind, Except.bind, hbuffer.cstring_eq] at hopen
  rcases outside_or_cut line position with hout | ⟨front, behind, rfl, rfl⟩
  · exact .refused (hopen.trans (if_pos hout)) trivial
  rcases lt_or_ge editor.lineCount editor.maxLines with hroom | hfull
  · exact .answered (h.splitLine hroom)
      (iff_of_true (textEdit_splitLine above below front behind) trivial)
  · exact .refused (h.splitLine_full hfull) trivial

theorem settled_deleteChar (h : Shows editor text) (lineNum position : Int) :
    Settled editor text (.deleteChar lineNum position) := by
  have hcount := h.count
  rcases outside_or_at text lineNum with hout | ⟨above, line, below, rfl, rfl⟩
  · exact .refused (if_pos (by omega)) trivial
  obtain ⟨buffer, hline, hbuffer⟩ := h.lineAt_eq
  rw [List.length_append, List.length_cons] at hcount
  have hopen : runEdit editor (.deleteChar above.length position) = _ := if_neg (by omega)
  simp only [hline, bind, Except.bind, hbuffer.cstring_eq] at hopen
  rcases outside_or_at line position with (hneg | hbig) | ⟨front, x, behind, rfl, rfl⟩
  · exact .refused (hopen.trans (if_pos hneg)) trivial
  · refine .refused ?_ trivial
    rw [hopen, if_neg (by omega), if_pos hbig]
  · exact .answered h.deleteChar
      (iff_of_true (textEdit_deleteChar above below front behind x) trivial)

-- The guard on the position is the buffer's: it lets a position behind the end of the text through.
theorem settled_insertChar (h : Shows editor text) (lineNum position : Int) (ch : UInt8) :
    Settled editor text (.insertChar lineNum position ch) := by
  have hmax : editorMaxLineLength = 1024 := rfl
  have hcount := h.count
  rcases outside_or_at text lineNum with hout | ⟨above, line, below, rfl, rfl⟩
  · refine .refused (if_pos (by omega)) fun n k line hn _ hline => ?_
    obtain ⟨hlt, -⟩ := List.getElem?_eq_some_iff.mp hline
    omega
  have hat : (above ++ line :: below)[above.length]? = some line := by simp
  obtain ⟨buffer, hline, hbuffer⟩ := h.lineAt_eq
  rw [List.length_append, List.length_cons] at hcount
  have hopen : runEdit editor (.insertChar above.length position ch) = _ := if_neg (by omega)
  simp only [hline, bind, Except.bind, hbuffer.cstring_eq] at hopen
  by_cases hguard : position < 0 ∨ position > (editorMaxLineLength : Int) - 2
  · exact .refused (hopen.trans (if_pos hguard)) fun n k _ _ hk _ hle => by omega
  rw [if_neg hguard] at hopen
  rcases lt_or_ge line.length (editorMaxLineLength - 1) with hroom | hfull
  · rcases outside_or_cut line position with (hneg | hbehind) | ⟨front, behind, rfl, rfl⟩
    · omega
    · obtain ⟨k, rfl⟩ := Int.eq_ofNat_of_zero_le (show 0 ≤ position by omega)
      refine .answered (h.insertChar_behind (by omega) (by omega)) ?_
      rw [textEdit_insertChar_behind above below line ch (by omega)]
      refine iff_of_false (Option.some_ne_none _).symm fun haccurate => ?_
      have := (haccurate _ k line rfl rfl hat (by omega) hroom).1
      omega
    · refine .answered (h.insertChar hroom) ?_
      rw [textEdit_insertChar]
      by_cases hch : ch = 0
      · refine iff_of_false (fun hsame => ?_) fun haccurate => ?_
        · simp [hch] at hsame
        · exact (haccurate _ front.length _ rfl rfl hat (by omega) hroom).2 hch
      · refine iff_of_true (by rw [if_neg hch]) fun n k line' hn hk hline' _ _ => ?_
        obtain rfl : n = above.length := by omega
        obtain rfl := Option.some.inj (hat.symm.trans hline')
        obtain rfl : k = front.length := by omega
        exact ⟨by simp, hch⟩
  · refine .refused (h.insertChar_full hfull position ch) fun n k line' hn _ hline' _ hshort => ?_
    obtain rfl : n = above.length := by omega
    obtain rfl := Option.some.inj (hat.symm.trans hline')
    omega

theorem settled (h : Shows editor text) (edit : Edit) : Settled editor text edit := by
  cases edit with
  | insertLine lineNum => exact settled_insertLine h lineNum
  | deleteLine lineNum => exact settled_deleteLine h lineNum
  | splitLine lineNum position => exact settled_splitLine h lineNum position
  | insertChar lineNum position ch => exact settled_insertChar h lineNum position ch
  | deleteChar lineNum position => exact settled_deleteChar h lineNum position

theorem runEdit_wellFormed (h : WellFormed editor) (edit : Edit) :
    ∃ result editor', runEdit editor edit = .ok (result, editor') ∧ WellFormed editor' ∧
      editor'.cursorY = editor.cursorY ∧ editor'.cursorX = editor.cursorX := by
  cases settled h.shows edit with
  | refused hcall => exact ⟨-1, editor, hcall, h, rfl, rfl⟩
  | answered hcall =>
    obtain ⟨editor', hrun, hedited, h'⟩ := hcall
    exact ⟨0, editor', hrun, h'.wellFormed, hedited.cursorY_eq, hedited.cursorX_eq⟩

theorem edits_wellFormed (maxLines : Int) (edits : List Edit) :
    ∃ editor, edits.foldlM (fun editor edit => Prod.snd <$> runEdit editor edit)
      (editorCreate maxLines) = .ok editor ∧ WellFormed editor := by
  refine Outcome.foldlM_total (P := fun _ => WellFormed) (create_shows maxLines).wellFormed ?_
  intro _ edit _ editor _ h
  obtain ⟨result, editor', hrun, h', -, -⟩ := runEdit_wellFormed h edit
  exact ⟨editor', Outcome.map_eq_ok.mpr ⟨_, hrun, rfl⟩, h'⟩

theorem editor_call_refines_iff_accurate (h : WellFormed editor) (edit : Edit) :
    Refines editor edit ↔ Accurate editor.text edit := by
  have hshows := h.shows
  cases settled hshows edit with
  | refused hcall haccurate =>
    refine iff_of_true ⟨-1, editor, hcall, h, rfl, fun _ hline => ?_, .inr ⟨rfl, rfl⟩⟩ haccurate
    exact hshows.length_lt hline
  | answered hcall hedit =>
    obtain ⟨editor', hrun, hedited, h'⟩ := hcall
    obtain rfl := h'.text_eq
    rw [← hedit]
    constructor
    · rintro ⟨result, other, hother, -, -, -, hresult⟩
      obtain ⟨rfl, rfl⟩ := Prod.mk.inj (Except.ok.inj (hrun.symm.trans hother))
      rcases hresult with ⟨-, hsame⟩ | ⟨hminus, -⟩
      · exact hsame
      · cases hminus
    · intro hsame
      exact ⟨0, editor', hrun, h'.wellFormed, hedited.maxLines_eq,
        fun _ hline => h'.length_lt hline, .inl ⟨rfl, hsame⟩⟩

def twoLines : List Edit :=
  [.insertChar 0 0 97, .insertChar 0 1 98, .insertChar 0 2 99, .splitLine 0 2]

theorem middle_char_refines : ∃ editor,
    twoLines.foldlM (fun editor edit => Prod.snd <$> runEdit editor edit) (editorCreate 9) = .ok editor ∧
      editor.text = [str "ab", str "c"] ∧ Refines editor (.insertChar 0 1 120) := by
  obtain ⟨editor, hrun, hwell⟩ := edits_wellFormed 9 twoLines
  have htext : EditorState.text <$> twoLines.foldlM (fun editor edit => Prod.snd <$> runEdit editor edit)
      (editorCreate 9) = .ok [str "ab", str "c"] := by decide +kernel
  rw [hrun] at htext
  have htext' : editor.text = [str "ab", str "c"] := Except.ok.inj htext
  refine ⟨editor, hrun, htext', (editor_call_refines_iff_accurate hwell _).mpr ?_⟩
  rw [htext']
  intro n k line hn hk hline _ _
  obtain rfl : n = 0 := by omega
  obtain rfl := Option.some.inj hline
  obtain rfl : k = 1 := by omega
  exact ⟨by decide, by decide⟩

theorem char_behind_the_line_is_lost :
    ¬ ∀ editor edit, WellFormed editor → Refines editor edit := by
  intro hall
  obtain ⟨result, editor', hrun, -, -, -, hresult⟩ :=
    hall (editorCreate 1) (.insertChar 0 5 97) (create_shows 1).wellFormed
  have hzero : Prod.fst <$> runEdit (editorCreate 1) (.insertChar 0 5 97) = .ok 0 := by
    decide +kernel
  have hnone : textEdit (editorCreate 1).text (.insertChar 0 5 97) = none := by decide +kernel
  rw [hrun] at hzero
  rcases hresult with ⟨-, hedit⟩ | ⟨hminus, -⟩
  · rw [hnone] at hedit
    cases hedit
  · rw [hminus] at hzero
    cases hzero

end Refinement

end ZoraVM.Editors
