import ZoraVM.Editors.EditRefinement
import ZoraVM.Foundation.Run

namespace ZoraVM.Editors

open Foundation

section Source

def lineFeed : UInt8 := 10

def screenHeight : Nat := 20

def adjustScroll (editor : EditorState) : EditorState :=
  { editor with
    scrollOffset :=
      if editor.cursorY < editor.scrollOffset then editor.cursorY
      else if editor.cursorY ≥ editor.scrollOffset + screenHeight then
        editor.cursorY - screenHeight + 1
      else editor.scrollOffset }

def editorMoveCursor (editor : EditorState) (dx dy : Int) : Outcome (Int × EditorState) := do
  let cursorY := editor.cursorY + dy
  let cursorX := editor.cursorX + dx
  let cursorY := if cursorY < 0 then 0 else cursorY
  let cursorY := if cursorY ≥ editor.lineCount then (editor.lineCount : Int) - 1 else cursorY
  let lineLen := (← cstring (← editor.lineAt cursorY)).length
  let cursorX := if cursorX < 0 then 0 else cursorX
  let cursorX := if cursorX > lineLen then (lineLen : Int) else cursorX
  .ok (0, adjustScroll { editor with cursorY := cursorY, cursorX := cursorX })

-- written: whether vfs_write_file takes the text.
def editorSaveFile (editor : EditorState) (filename : Option Bytes) (written : Bool) :
    Int × EditorState :=
  let savePath := filename.getD editor.filename
  if savePath = [] then (-1, editor)
  else if written then (0, { editor with filename := clip 256 savePath, modified := false })
  else (-1, editor)

-- What one turn of the loop takes from outside: what fgets reads for the command, what it reads for
-- the question, if it reads anything there, and how a write of the file ends.
structure Turn where
  typed : Bytes
  response : Option Bytes
  written : Bool
  deriving DecidableEq, Repr

def Turn.cmd (turn : Turn) : Bytes := (turn.typed.take 99).takeWhile fun c => c ≠ lineFeed ∧ c ≠ 0

def insertText (editor : EditorState) : Bytes → Outcome EditorState
  | [] => .ok editor
  | c :: text => do
    let (_, editor) ← editorInsertChar editor editor.cursorY editor.cursorX c
    insertText { editor with cursorX := editor.cursorX + 1 } text

-- One turn of editor_run; `none` where the loop ends. The second test for "s" is never reached.
def editorTurn (editor : EditorState) (turn : Turn) : Outcome (Option EditorState) :=
  if turn.cmd = str "q" ∨ turn.cmd = str "quit" then
    match editor.modified, turn.response with
    | true, some (c :: _) =>
      if [c] = str "y" ∨ [c] = str "Y" then
        let (result, editor) := editorSaveFile editor none turn.written
        if result = 0 then .ok none else .ok (some editor)
      else .ok none
    | _, _ => .ok none
  else if turn.cmd = str "s" ∨ turn.cmd = str "save" then
    .ok (some (editorSaveFile editor none turn.written).2)
  else if turn.cmd = str "w" then do
    let (_, editor) ← editorMoveCursor editor 0 (-1)
    .ok (some editor)
  else if turn.cmd = str "s" then do
    let (_, editor) ← editorMoveCursor editor 0 1
    .ok (some editor)
  else if turn.cmd = str "a" then do
    let (_, editor) ← editorMoveCursor editor (-1) 0
    .ok (some editor)
  else if turn.cmd = str "d" then do
    let (_, editor) ← editorMoveCursor editor 1 0
    .ok (some editor)
  else if turn.cmd.take 2 = str "i " then do
    let editor ← insertText editor (turn.cmd.drop 2)
    .ok (some editor)
  else if turn.cmd = str "newline" ∨ turn.cmd = str "n" then do
    let (_, editor) ← editorSplitLine editor editor.cursorY editor.cursorX
    .ok (some { editor with cursorY := editor.cursorY + 1, cursorX := 0 })
  else if turn.cmd = str "backspace" ∨ turn.cmd = str "b" then
    if editor.cursorX > 0 then do
      let (_, editor) ← editorDeleteChar editor editor.cursorY (editor.cursorX - 1)
      .ok (some { editor with cursorX := editor.cursorX - 1 })
    else .ok (some editor)
  else .ok (some editor)

def editorStep (editor : EditorState) (turn : Turn) : Option EditorState :=
  match editorTurn editor turn with
  | .ok next => next
  | .error _ => none

end Source

def CursorInside (editor : EditorState) : Prop :=
  0 ≤ editor.cursorY ∧ editor.cursorY < editor.lineCount ∧ 0 ≤ editor.cursorX ∧
    ∃ line, editor.text[editor.cursorY.toNat]? = some line ∧ editor.cursorX ≤ line.length

def Fits (editor : EditorState) (turn : Turn) : Prop :=
  (turn.cmd.take 2 = str "i " →
    editor.cursorX + (turn.cmd.drop 2).length < editorMaxLineLength) ∧
  (turn.cmd = str "newline" ∨ turn.cmd = str "n" →
    editor.lineCount < editor.maxLines ∨ editor.cursorY + 1 < editor.lineCount)

structure Stands (editor : EditorState) (above : List Bytes) (front behind : Bytes)
    (below : List Bytes) : Prop where
  shows : Shows editor (above ++ (front ++ behind) :: below)
  row : editor.cursorY = above.length
  column : editor.cursorX = front.length

section Places

variable {editor : EditorState} {above below : List Bytes} {front behind : Bytes}

theorem Stands.wellFormed (h : Stands editor above front behind below) : WellFormed editor :=
  h.shows.wellFormed

theorem Stands.inside (h : Stands editor above front behind below) : CursorInside editor := by
  have hcount := h.shows.count
  have hrow := h.row
  have hcolumn := h.column
  rw [List.length_append, List.length_cons] at hcount
  refine ⟨by omega, by omega, by omega, front ++ behind, ?_, ?_⟩
  · rw [h.shows.text_eq, hrow, Int.toNat_natCast]
    simp
  · rw [hcolumn, List.length_append]
    omega

theorem exists_stands (h : WellFormed editor) (hinside : CursorInside editor) :
    ∃ above front behind below, Stands editor above front behind below := by
  obtain ⟨hrow, -, hcolumn, line, hline, hle⟩ := hinside
  have hshows := h.shows
  obtain ⟨hlt, rfl⟩ := List.getElem?_eq_some_iff.mp hline
  rcases outside_or_at editor.text editor.cursorY with hout | ⟨above, line, below, htext, hy⟩
  · omega
  have hat : editor.text[editor.cursorY.toNat] = line := by
    rw [← Option.some_inj, ← hline, htext, hy, Int.toNat_natCast]
    simp
  rw [hat] at hle
  rcases outside_or_cut line editor.cursorX with hout | ⟨front, behind, hcut, hx⟩
  · omega
  rw [htext, hcut] at hshows
  exact ⟨above, front, behind, below, hshows, hy, hx⟩

end Places

section Turns

variable {editor editor' : EditorState} {text above below : List Bytes} {front behind : Bytes}
variable {turn : Turn}

theorem moveCursor_stands (h : Shows editor text) (dx dy : Int) :
    ∃ editor' above front behind below, editorMoveCursor editor dx dy = .ok (0, editor') ∧
      Stands editor' above front behind below := by
  have hcount := h.count
  have hpos := List.length_pos_iff.mpr h.nonempty
  generalize hy : (if (if editor.cursorY + dy < 0 then 0 else editor.cursorY + dy) ≥
    editor.lineCount then (editor.lineCount : Int) - 1
    else if editor.cursorY + dy < 0 then 0 else editor.cursorY + dy) = y
  rcases outside_or_at text y with hout | ⟨above, line, below, rfl, rfl⟩
  · split_ifs at hy <;> omega
  obtain ⟨buffer, hline, hbuffer⟩ := h.lineAt_eq
  generalize hx : (if (if editor.cursorX + dx < 0 then 0 else editor.cursorX + dx) >
    line.length then (line.length : Int)
    else if editor.cursorX + dx < 0 then 0 else editor.cursorX + dx) = x
  rcases outside_or_cut line x with hout | ⟨front, behind, rfl, rfl⟩
  · split_ifs at hx <;> omega
  refine ⟨adjustScroll { editor with cursorY := above.length, cursorX := front.length }, above,
    front, behind, below, ?_, ⟨h.nonempty, h.count, h.size, h.entries⟩, rfl, rfl⟩
  simp only [editorMoveCursor, hy, hline, bind, Except.bind, hbuffer.cstring_eq, hx]

theorem insertText_wellFormed (h : WellFormed editor) (typed : Bytes) :
    ∃ editor', insertText editor typed = .ok editor' ∧ WellFormed editor' ∧
      editor'.cursorX = editor.cursorX + typed.length := by
  induction typed generalizing editor with
  | nil => exact ⟨editor, rfl, h, by simp⟩
  | cons c typed ih =>
    obtain ⟨result, editor₁, hrun, h₁, -, hx₁⟩ :=
      runEdit_wellFormed h (.insertChar editor.cursorY editor.cursorX c)
    have h₂ : WellFormed { editor₁ with cursorX := editor₁.cursorX + 1 } :=
      ⟨h₁.size, h₁.count, h₁.buffers⟩
    obtain ⟨editor', hrest, h', hx'⟩ := ih h₂
    refine ⟨editor', ?_, h', ?_⟩
    · rw [insertText, show editorInsertChar _ _ _ _ = _ from hrun]
      exact hrest
    · rw [hx', List.length_cons, hx₁]
      push_cast
      omega

theorem insertText_stands (h : Stands editor above front behind below) {typed : Bytes}
    (hplain : 0 ∉ typed) (hfits : front.length + typed.length < editorMaxLineLength) :
    ∃ editor' front' behind', insertText editor typed = .ok editor' ∧
      Stands editor' above front' behind' below := by
  induction typed generalizing editor front behind with
  | nil => exact ⟨editor, front, behind, rfl, h⟩
  | cons c typed ih =>
    rw [List.mem_cons, not_or] at hplain
    rw [List.length_cons] at hfits
    have hrow := h.row
    have hcolumn := h.column
    have hmax : editorMaxLineLength = 1024 := rfl
    rw [insertText, hrow, hcolumn]
    rcases lt_or_ge (front ++ behind).length (editorMaxLineLength - 1) with hroom | hfull
    · obtain ⟨editor₁, hrun, hedited, h₁⟩ := h.shows.insertChar (x := c) hroom
      rw [if_neg (Ne.symm hplain.1), List.append_cons front c behind] at h₁
      rw [hrun]
      refine @ih { editor₁ with cursorX := editor₁.cursorX + 1 } (front ++ [c]) behind ?_ hplain.2 ?_
      · refine ⟨⟨h₁.nonempty, h₁.count, h₁.size, h₁.entries⟩, ?_, ?_⟩
        · exact hedited.cursorY_eq.trans hrow
        · simp [hedited.cursorX_eq, hcolumn]
      · simp only [List.length_append, List.length_singleton]
        omega
    · rw [h.shows.insertChar_full hfull]
      cases behind with
      | nil =>
        rw [List.append_nil] at hfull
        omega
      | cons y behind =>
        refine @ih { editor with cursorX := editor.cursorX + 1 } (front ++ [y]) behind ?_ hplain.2 ?_
        · have h₁ := h.shows
          rw [List.append_cons front y behind] at h₁
          exact ⟨⟨h₁.nonempty, h₁.count, h₁.size, h₁.entries⟩, hrow, by simp [hcolumn]⟩
        · simp only [List.length_append, List.length_singleton]
          omega

theorem Fits.of_word {word : Bytes} (hcmd : turn.cmd = word)
    (hword : word.take 2 ≠ str "i " ∧ word ≠ str "newline" ∧ word ≠ str "n") : Fits editor turn := by
  subst hcmd
  exact ⟨fun hi => absurd hi hword.1, fun hn => absurd hn (not_or.mpr hword.2)⟩

theorem zero_notMem_cmd (turn : Turn) : 0 ∉ turn.cmd := fun hzero => by
  simpa using List.mem_takeWhile_imp hzero

theorem save_stands (h : Stands editor above front behind below) (filename : Option Bytes)
    (written : Bool) : Stands (editorSaveFile editor filename written).2 above front behind below := by
  simp only [editorSaveFile]
  split_ifs
  · exact h
  · exact ⟨⟨h.shows.nonempty, h.shows.count, h.shows.size, h.shows.entries⟩, h.row, h.column⟩
  · exact h

theorem typed_inside_iff (h : Stands editor above front behind below) {typed : Bytes}
    (hplain : 0 ∉ typed) :
    ∃ editor', insertText editor typed = .ok editor' ∧ WellFormed editor' ∧
      (CursorInside editor' ↔ editor.cursorX + typed.length < editorMaxLineLength) := by
  have hcolumn := h.column
  rcases lt_or_ge (front.length + typed.length) editorMaxLineLength with hfits | hover
  · obtain ⟨editor', _, _, hrun, h'⟩ := insertText_stands h hplain hfits
    exact ⟨editor', hrun, h'.wellFormed, iff_of_true h'.inside (by omega)⟩
  · obtain ⟨editor', hrun, h', hx⟩ := insertText_wellFormed h.wellFormed typed
    refine ⟨editor', hrun, h', iff_of_false ?_ (by omega)⟩
    rintro ⟨-, -, -, line, hline, hle⟩
    have hlen := h'.shows.length_lt (List.mem_of_getElem? hline)
    omega

theorem split_inside_iff (h : Stands editor above front behind below) :
    ∃ result editor', editorSplitLine editor editor.cursorY editor.cursorX = .ok (result, editor') ∧
      WellFormed { editor' with cursorY := editor'.cursorY + 1, cursorX := 0 } ∧
      (CursorInside { editor' with cursorY := editor'.cursorY + 1, cursorX := 0 } ↔
        editor.lineCount < editor.maxLines ∨ editor.cursorY + 1 < editor.lineCount) := by
  have hrow := h.row
  rw [hrow, h.column]
  rcases lt_or_ge editor.lineCount editor.maxLines with hroom | hfull
  · obtain ⟨editor₁, hrun, hedited, h₁⟩ := h.shows.splitLine hroom
    rw [List.append_cons] at h₁
    have h' : Stands { editor₁ with cursorY := editor₁.cursorY + 1, cursorX := 0 } (above ++ [front])
        [] behind below := by
      refine ⟨⟨h₁.nonempty, h₁.count, h₁.size, h₁.entries⟩, ?_, rfl⟩
      simp [hedited.cursorY_eq, hrow]
    exact ⟨0, editor₁, hrun, h'.wellFormed, iff_of_true h'.inside (.inl hroom)⟩
  · have hcount := h.shows.count
    rw [List.length_append, List.length_cons] at hcount
    refine ⟨-1, editor, h.shows.splitLine_full hfull, ?_, ?_⟩
    · exact ⟨h.wellFormed.size, h.wellFormed.count, h.wellFormed.buffers⟩
    cases below with
    | nil =>
      refine iff_of_false ?_ (by simp only [List.length_nil] at hcount; omega)
      rintro ⟨-, hlt, -⟩
      change editor.cursorY + 1 < (editor.lineCount : Int) at hlt
      simp only [List.length_nil] at hcount
      omega
    | cons line below =>
      have hshows := h.shows
      rw [List.append_cons] at hshows
      have h' : Stands { editor with cursorY := editor.cursorY + 1, cursorX := 0 }
          (above ++ [front ++ behind]) [] line below :=
        ⟨⟨hshows.nonempty, hshows.count, hshows.size, hshows.entries⟩, by simp [hrow], rfl⟩
      refine iff_of_true h'.inside (.inr ?_)
      rw [List.length_cons] at hcount
      omega

theorem backspace_stands (h : Stands editor above front behind below) (hpos : editor.cursorX > 0) :
    ∃ result editor' front', editorDeleteChar editor editor.cursorY (editor.cursorX - 1) =
      .ok (result, editor') ∧
      Stands { editor' with cursorX := editor'.cursorX - 1 } above front' behind below := by
  have hcolumn := h.column
  have hshows := h.shows
  induction front using List.reverseRecOn with
  | nil => simp only [List.length_nil] at hcolumn; omega
  | append_singleton front x =>
    rw [List.append_assoc, List.singleton_append] at hshows
    obtain ⟨editor₁, hrun, hedited, h₁⟩ := hshows.deleteChar
    have hbefore : editor.cursorX - 1 = front.length := by
      rw [List.length_append, List.length_singleton] at hcolumn
      omega
    rw [h.row, hbefore]
    refine ⟨0, editor₁, front, hrun, ⟨h₁.nonempty, h₁.count, h₁.size, h₁.entries⟩, ?_, ?_⟩
    · exact hedited.cursorY_eq.trans h.row
    · simp only [hedited.cursorX_eq, hbefore]

def StepsTo (editor : EditorState) (turn : Turn) : Prop :=
  ∃ next, editorTurn editor turn = .ok next ∧
    ∀ editor', next = some editor' → WellFormed editor' ∧ (CursorInside editor' ↔ Fits editor turn)

theorem stepsTo_of_stands (hfits : Fits editor turn) {editor' : EditorState}
    (hrun : editorTurn editor turn = .ok (some editor')) (h' : Stands editor' above front behind below) :
    StepsTo editor turn :=
  ⟨some editor', hrun, fun _ heq => Option.some.inj heq ▸ ⟨h'.wellFormed, iff_of_true h'.inside hfits⟩⟩

theorem quit_stepsTo (h : Stands editor above front behind below)
    (hq : turn.cmd = str "q" ∨ turn.cmd = str "quit") : StepsTo editor turn := by
  have hfits : Fits editor turn := hq.elim (.of_word · (by decide)) (.of_word · (by decide))
  have hopen : editorTurn editor turn = _ := if_pos hq
  have hends : editorTurn editor turn = .ok none → StepsTo editor turn :=
    fun hrun => ⟨none, hrun, fun _ hnone => by cases hnone⟩
  split at hopen
  · split at hopen
    · dsimp only at hopen
      split at hopen
      · exact hends hopen
      · exact stepsTo_of_stands hfits hopen (save_stands h none turn.written)
    · exact hends hopen
  · exact hends hopen

theorem move_stepsTo (h : Stands editor above front behind below) (hfits : Fits editor turn)
    {dx dy : Int} (hopen : editorTurn editor turn = (do
      let (_, editor) ← editorMoveCursor editor dx dy
      .ok (some editor))) : StepsTo editor turn := by
  obtain ⟨editor', _, _, _, _, hrun, h'⟩ := moveCursor_stands h.shows dx dy
  rw [hrun] at hopen
  exact stepsTo_of_stands hfits hopen h'

theorem type_stepsTo (h : Stands editor above front behind below)
    (hi : turn.cmd.take 2 = str "i ") (hopen : editorTurn editor turn = (do
      let editor ← insertText editor (turn.cmd.drop 2)
      .ok (some editor))) : StepsTo editor turn := by
  have hplain : 0 ∉ turn.cmd.drop 2 := fun hzero => zero_notMem_cmd turn (List.mem_of_mem_drop hzero)
  obtain ⟨editor', hrun, h', hiff⟩ := typed_inside_iff h hplain
  rw [hrun] at hopen
  refine ⟨some editor', hopen, fun _ heq => Option.some.inj heq ▸ ⟨h', hiff.trans ?_⟩⟩
  refine ⟨fun hroom => ⟨fun _ => hroom, fun hn => ?_⟩, fun hfits => hfits.1 hi⟩
  rcases hn with hn | hn
  · exact absurd (hn ▸ hi) (by decide)
  · exact absurd (hn ▸ hi) (by decide)

theorem newline_stepsTo (h : Stands editor above front behind below)
    (hi : turn.cmd.take 2 ≠ str "i ") (hn : turn.cmd = str "newline" ∨ turn.cmd = str "n")
    (hopen : editorTurn editor turn = (do
      let (_, editor) ← editorSplitLine editor editor.cursorY editor.cursorX
      .ok (some { editor with cursorY := editor.cursorY + 1, cursorX := 0 }))) :
    StepsTo editor turn := by
  obtain ⟨result, editor', hrun, h', hiff⟩ := split_inside_iff h
  rw [hrun] at hopen
  refine ⟨some { editor' with cursorY := editor'.cursorY + 1, cursorX := 0 }, hopen,
    fun _ heq => Option.some.inj heq ▸ ⟨h', hiff.trans ?_⟩⟩
  exact ⟨fun hroom => ⟨fun htext => absurd htext hi, fun _ => hroom⟩, fun hfits => hfits.2 hn⟩

theorem turn_stepsTo (h : Stands editor above front behind below) (turn : Turn) :
    StepsTo editor turn := by
  by_cases hq : turn.cmd = str "q" ∨ turn.cmd = str "quit"
  · exact quit_stepsTo h hq
  by_cases hs : turn.cmd = str "s" ∨ turn.cmd = str "save"
  · have hfits : Fits editor turn := hs.elim (.of_word · (by decide)) (.of_word · (by decide))
    exact stepsTo_of_stands hfits ((if_neg hq).trans (if_pos hs)) (save_stands h none turn.written)
  have hopen : editorTurn editor turn = _ := (if_neg hq).trans (if_neg hs)
  by_cases hw : turn.cmd = str "w"
  · exact move_stepsTo h (.of_word hw (by decide)) (hopen.trans (if_pos hw))
  rw [if_neg hw, if_neg fun hdown => hs (.inl hdown)] at hopen
  by_cases ha : turn.cmd = str "a"
  · exact move_stepsTo h (.of_word ha (by decide)) (hopen.trans (if_pos ha))
  rw [if_neg ha] at hopen
  by_cases hd : turn.cmd = str "d"
  · exact move_stepsTo h (.of_word hd (by decide)) (hopen.trans (if_pos hd))
  rw [if_neg hd] at hopen
  by_cases hi : turn.cmd.take 2 = str "i "
  · exact type_stepsTo h hi (hopen.trans (if_pos hi))
  rw [if_neg hi] at hopen
  by_cases hn : turn.cmd = str "newline" ∨ turn.cmd = str "n"
  · exact newline_stepsTo h hi hn (hopen.trans (if_pos hn))
  have hfits : Fits editor turn := ⟨fun htext => absurd htext hi, fun hsplit => absurd hsplit hn⟩
  rw [if_neg hn] at hopen
  by_cases hb : turn.cmd = str "backspace" ∨ turn.cmd = str "b"
  · rw [if_pos hb] at hopen
    by_cases hpos : editor.cursorX > 0
    · obtain ⟨result, editor', front', hrun, h'⟩ := backspace_stands h hpos
      rw [if_pos hpos, hrun] at hopen
      exact stepsTo_of_stands hfits hopen h'
    · exact stepsTo_of_stands hfits (hopen.trans (if_neg hpos)) h
  · exact stepsTo_of_stands hfits (hopen.trans (if_neg hb)) h

theorem turn_inside_iff_fits (h : WellFormed editor) (hinside : CursorInside editor) (turn : Turn) :
    StepsTo editor turn := by
  obtain ⟨above, front, behind, below, hstands⟩ := exists_stands h hinside
  exact turn_stepsTo hstands turn

end Turns

section Runs

variable {maxLines : Int} {turns : List Turn} {editor : EditorState}

theorem create_stands (maxLines : Int) : Stands (editorCreate maxLines) [] [] [] [] :=
  ⟨create_shows maxLines, rfl, rfl⟩

theorem run_inside (h : Run editorStep Fits (editorCreate maxLines) turns editor) :
    WellFormed editor ∧ CursorInside editor := by
  refine h.invariant (P := fun editor => WellFormed editor ∧ CursorInside editor)
    ⟨(create_stands maxLines).wellFormed, (create_stands maxLines).inside⟩ ?_
  intro editor turn editor' ⟨hformed, hinside⟩ hfits hstep
  obtain ⟨next, hrun, hnext⟩ := turn_inside_iff_fits hformed hinside turn
  rw [editorStep, hrun] at hstep
  obtain ⟨hformed', hiff⟩ := hnext editor' hstep
  exact ⟨hformed', hiff.mpr hfits⟩

theorem cursor_stays_inside (h : Run editorStep Fits (editorCreate maxLines) turns editor) :
    CursorInside editor ∧ ∀ turn, ∃ next, editorTurn editor turn = .ok next := by
  obtain ⟨hformed, hinside⟩ := run_inside h
  refine ⟨hinside, fun turn => ?_⟩
  obtain ⟨next, hrun, -⟩ := turn_inside_iff_fits hformed hinside turn
  exact ⟨next, hrun⟩

def typed (command : String) : Turn := ⟨str command ++ [lineFeed], none, false⟩

instance (editor : EditorState) (turn : Turn) : Decidable (Fits editor turn) :=
  inferInstanceAs (Decidable (_ ∧ _))

def typedTurns : List Turn := [typed "i ab", typed "a", typed "n", typed "d", typed "b", typed "w"]

def typedEditor : EditorState :=
  (exec (guarded editorStep fun editor turn => decide (Fits editor turn)) (editorCreate 2)
    typedTurns).getD (editorCreate 2)

theorem typed_cursor_inside :
    CursorInside typedEditor ∧ ∀ turn, ∃ next, editorTurn typedEditor turn = .ok next := by
  have hrun : Run editorStep Fits (editorCreate 2) typedTurns typedEditor := by
    refine (Run.of_exec_isSome ?_).mono fun editor turn hfits => of_decide_eq_true hfits
    decide +kernel
  exact cursor_stays_inside hrun

theorem cursor_leaves_a_full_editor :
    ¬ ∀ maxLines turns editor, Run editorStep (fun _ _ => True) (editorCreate maxLines) turns editor →
      CursorInside editor := by
  intro hall
  obtain ⟨editor, hstep, hbelow⟩ : ∃ editor, editorStep (editorCreate 1) (typed "n") = some editor ∧
      ¬ editor.cursorY < editor.lineCount := by
    refine ⟨{ editorCreate 1 with cursorY := 1 }, ?_, ?_⟩ <;> decide +kernel
  exact hbelow (hall 1 [typed "n"] editor (.single trivial hstep)).2.1

end Runs

end ZoraVM.Editors
