import ZoraVM.Editors.LineEditor

namespace ZoraVM.Editors

open Foundation

def Holds (entry : Option Bytes) (line : Bytes) : Prop := ∃ buffer, entry = some buffer ∧ Spells buffer line

structure Shows (editor : EditorState) (text : List Bytes) : Prop where
  nonempty : text ≠ []
  count : editor.lineCount = text.length
  size : editor.lines.length = editor.maxLines
  entries : ∃ front spare, editor.lines = front ++ spare ∧ List.Forall₂ Holds front text

def Edited (editor editor' : EditorState) : Prop :=
  ∃ lines lineCount, editor' = editor.edited lines lineCount

namespace Edited

variable {editor editor' later : EditorState}

theorem trans (h : Edited editor editor') (h' : Edited editor' later) : Edited editor later := by
  obtain ⟨lines, lineCount, rfl⟩ := h
  obtain ⟨lines', lineCount', rfl⟩ := h'
  exact ⟨lines', lineCount', rfl⟩

theorem maxLines_eq (h : Edited editor editor') : editor'.maxLines = editor.maxLines := by
  obtain ⟨lines, lineCount, rfl⟩ := h
  rfl

theorem cursorY_eq (h : Edited editor editor') : editor'.cursorY = editor.cursorY := by
  obtain ⟨lines, lineCount, rfl⟩ := h
  rfl

theorem cursorX_eq (h : Edited editor editor') : editor'.cursorX = editor.cursorX := by
  obtain ⟨lines, lineCount, rfl⟩ := h
  rfl

end Edited

def Answers (call : Outcome (Int × EditorState)) (editor : EditorState) (text : List Bytes) : Prop :=
  ∃ editor', call = .ok (0, editor') ∧ Edited editor editor' ∧ Shows editor' text

theorem holds_split {entries : List (Option Bytes)} {above below : List Bytes}
    (h : List.Forall₂ Holds entries (above ++ below)) :
    ∃ front behind, entries = front ++ behind ∧ List.Forall₂ Holds front above ∧
      List.Forall₂ Holds behind below :=
  ⟨entries.take above.length, entries.drop above.length, (List.take_append_drop _ _).symm,
    List.forall₂_take_append _ _ _ h, List.forall₂_drop_append _ _ _ h⟩

namespace Shows

variable {editor : EditorState} {text above below : List Bytes} {line front behind buffer : Bytes}
variable {x : UInt8} {position : Nat}

theorem lineCount_le (h : Shows editor text) : editor.lineCount ≤ editor.maxLines := by
  obtain ⟨entries, spare, hlines, hheld⟩ := h.entries
  have hsize := h.size
  rw [hlines, List.length_append, hheld.length_eq] at hsize
  rw [h.count]
  omega

theorem entry (h : Shows editor (above ++ line :: below)) :
    ∃ front buffer behind spare, editor.lines = front ++ some buffer :: (behind ++ spare) ∧
      List.Forall₂ Holds front above ∧ Spells buffer line ∧ List.Forall₂ Holds behind below := by
  obtain ⟨entries, spare, hlines, hheld⟩ := h.entries
  obtain ⟨front, rest, rfl, hfront, hrest⟩ := holds_split hheld
  cases hrest with
  | cons hentry hbehind =>
    obtain ⟨buffer, rfl, hbuffer⟩ := hentry
    exact ⟨front, buffer, _, spare, by simp [hlines], hfront, hbuffer, hbehind⟩

theorem lineAt_eq (h : Shows editor (above ++ line :: below)) :
    ∃ buffer, editor.lineAt above.length = .ok buffer ∧ Spells buffer line := by
  obtain ⟨entries, buffer, behind, spare, hlines, hfront, hbuffer, -⟩ := h.entry
  refine ⟨buffer, ?_, hbuffer⟩
  rw [EditorState.lineAt, if_neg (by omega), hlines, Int.toNat_natCast, ← hfront.length_eq,
    load_middle]
  rfl

theorem putLine_eq (h : Shows editor (above ++ line :: below)) {line' : Bytes}
    (hbuffer : Spells buffer line') :
    ∃ editor', editor.putLine above.length buffer = .ok editor' ∧ Edited editor editor' ∧
      Shows editor' (above ++ line' :: below) := by
  obtain ⟨entries, old, behind, spare, hlines, hfront, -, hbehind⟩ := h.entry
  have hstore := store_middle entries (behind ++ spare) (some old) (some buffer)
  refine ⟨editor.edited (entries ++ some buffer :: (behind ++ spare)) editor.lineCount, ?_,
    ⟨_, _, rfl⟩, ?_⟩
  · rw [EditorState.putLine, hlines, Int.toNat_natCast, ← hfront.length_eq, hstore]
    rfl
  · refine ⟨by simp, ?_, ?_, entries ++ some buffer :: behind, spare, ?_, ?_⟩
    · simpa [EditorState.edited] using h.count
    · have hsize := h.size
      rw [hlines] at hsize
      simpa [EditorState.edited] using hsize
    · simp [EditorState.edited]
    · exact List.rel_append hfront (.cons ⟨buffer, rfl, hbuffer⟩ hbehind)

theorem insertLine (h : Shows editor (above ++ below)) (hroom : editor.lineCount < editor.maxLines) :
    Answers (editorInsertLine editor above.length) editor (above ++ [] :: below) := by
  have hcount := h.count
  have hsize := h.size
  obtain ⟨entries, spare, hlines, hheld⟩ := h.entries
  obtain ⟨front, behind, rfl, hfront, hbehind⟩ := holds_split hheld
  rw [List.length_append, ← hfront.length_eq, ← hbehind.length_eq] at hcount
  rw [hlines, List.length_append, List.length_append] at hsize
  cases spare with
  | nil =>
    simp only [List.length_nil] at hsize
    omega
  | cons y spare =>
    have hshift := shiftUp_store front behind spare y (some blankLine)
    refine ⟨editor.edited (front ++ some blankLine :: behind ++ spare) (editor.lineCount + 1), ?_,
      ⟨_, _, rfl⟩, by simp, ?_, ?_, front ++ some blankLine :: behind, spare, rfl, ?_⟩
    · rw [editorInsertLine, if_neg (by rw [← hfront.length_eq]; omega), if_neg (by omega),
        Int.toNat_natCast, ← hfront.length_eq,
        show editor.lineCount - front.length = behind.length by omega, hlines]
      obtain ⟨cells, hcells, hstore⟩ := Outcome.bind_eq_ok.mp hshift
      simp only [bind, Except.bind, hcells, hstore]
    · simp only [EditorState.edited, List.length_append, List.length_cons, ← hfront.length_eq,
        ← hbehind.length_eq]
      omega
    · simp only [EditorState.edited, List.length_append, List.length_cons] at hsize ⊢
      omega
    · exact List.rel_append hfront (.cons ⟨blankLine, rfl, Spells.blank⟩ hbehind)

theorem deleteLine_only (h : Shows editor [line]) :
    Answers (editorDeleteLine editor 0) editor [[]] := by
  have hcount := h.count
  have h₀ : Shows editor ([] ++ ([] ++ line) :: []) := h
  obtain ⟨buffer, hline, hbuffer⟩ := h₀.lineAt_eq
  obtain ⟨buffer', hstore, hbuffer'⟩ := hbuffer.truncated
  obtain ⟨editor', hput, hedited, hshows⟩ := h₀.putLine_eq hbuffer'
  refine ⟨editor', ?_, hedited, hshows⟩
  rw [List.length_singleton] at hcount
  rw [List.length_nil, Int.ofNat_zero] at hline hput
  rw [List.length_nil] at hstore
  rw [editorDeleteLine, if_neg (by omega), if_pos (by omega), hline]
  simp only [bind, Except.bind, hstore, hput]

theorem deleteLine_more (h : Shows editor (above ++ line :: below)) (hmore : above ++ below ≠ []) :
    Answers (editorDeleteLine editor above.length) editor (above ++ below) := by
  have hcount := h.count
  have hsize := h.size
  have hlen := List.length_pos_iff.mpr hmore
  obtain ⟨front, buffer, behind, spare, hlines, hfront, -, hbehind⟩ := h.entry
  have hstore := store_middle front (behind ++ spare) (some buffer) none
  obtain ⟨last, hshift⟩ := shiftDown_moved front behind spare none
  rw [List.length_append, List.length_cons, ← hfront.length_eq, ← hbehind.length_eq] at hcount
  rw [List.length_append, ← hfront.length_eq, ← hbehind.length_eq] at hlen
  rw [hlines] at hsize
  rw [List.append_assoc, List.cons_append] at hshift
  refine ⟨editor.edited (front ++ behind ++ last :: spare) (editor.lineCount - 1), ?_,
    ⟨_, _, rfl⟩, hmore, ?_, ?_, front ++ behind, last :: spare, rfl,
    List.rel_append hfront hbehind⟩
  · rw [editorDeleteLine, if_neg (by rw [← hfront.length_eq]; omega), if_neg (by omega),
      Int.toNat_natCast, ← hfront.length_eq,
      show editor.lineCount - 1 - front.length = behind.length by omega, hlines]
    simp only [bind, Except.bind, hstore, hshift]
  · simp only [EditorState.edited, List.length_append, ← hfront.length_eq, ← hbehind.length_eq]
    omega
  · simp only [EditorState.edited, List.length_append, List.length_cons] at hsize ⊢
    omega

theorem splitLine (h : Shows editor (above ++ (front ++ behind) :: below))
    (hroom : editor.lineCount < editor.maxLines) :
    Answers (editorSplitLine editor above.length front.length) editor
      (above ++ front :: behind :: below) := by
  have hcount := h.count
  rw [List.length_append, List.length_cons] at hcount
  obtain ⟨buffer, hline, hbuffer⟩ := h.lineAt_eq
  rw [List.append_cons] at h
  obtain ⟨editor₁, hinsert, hedited₁, h₁⟩ := h.insertLine hroom
  have hnext : ((above ++ [front ++ behind]).length : Int) = (above.length : Int) + 1 := by simp
  obtain ⟨fresh, hfresh, hblank⟩ := h₁.lineAt_eq
  rw [List.append_assoc, List.singleton_append] at h₁
  obtain ⟨buffer₁, hline₁, hbuffer₁⟩ := h₁.lineAt_eq
  obtain ⟨copy, hcopy, hheld⟩ := hbuffer₁.copied hblank.size
  rw [List.append_cons] at h₁
  obtain ⟨editor₂, hput₂, hedited₂, h₂⟩ := h₁.putLine_eq hheld
  obtain ⟨cut, hstore, hcut⟩ := hbuffer₁.truncated
  rw [List.append_assoc, List.singleton_append] at h₂
  obtain ⟨editor₃, hput₃, hedited₃, h₃⟩ := h₂.putLine_eq hcut
  refine ⟨editor₃, ?_, (hedited₁.trans hedited₂).trans hedited₃, h₃⟩
  rw [hnext] at hinsert hfresh hput₂
  rw [editorSplitLine, if_neg (by omega), hline]
  simp only [bind, Except.bind, hbuffer.cstring_eq]
  rw [if_neg (by simp), if_neg (by omega), hinsert]
  simp only [ne_eq, not_true_eq_false, if_false, hline₁, hfresh, Int.toNat_natCast, hcopy, hput₂,
    hstore, hput₃]

theorem splitLine_full (h : Shows editor (above ++ (front ++ behind) :: below))
    (hfull : editor.maxLines ≤ editor.lineCount) :
    editorSplitLine editor above.length front.length = .ok (-1, editor) := by
  have hcount := h.count
  rw [List.length_append, List.length_cons] at hcount
  obtain ⟨buffer, hline, hbuffer⟩ := h.lineAt_eq
  rw [editorSplitLine, if_neg (by omega), hline]
  simp only [bind, Except.bind, hbuffer.cstring_eq]
  rw [if_neg (by simp), if_pos hfull]

theorem insertChar (h : Shows editor (above ++ (front ++ behind) :: below))
    (hroom : (front ++ behind).length < editorMaxLineLength - 1) :
    Answers (editorInsertChar editor above.length front.length x) editor
      (above ++ (if x = 0 then front else front ++ x :: behind) :: below) := by
  have hcount := h.count
  obtain ⟨buffer, hline, hbuffer⟩ := h.lineAt_eq
  obtain ⟨buffer', hinsert, hbuffer'⟩ := hbuffer.inserted (x := x) hroom
  obtain ⟨editor', hput, hedited, hshows⟩ := h.putLine_eq hbuffer'
  refine ⟨editor', ?_, hedited, hshows⟩
  obtain ⟨cells, hcells, hstore⟩ := Outcome.bind_eq_ok.mp hinsert
  rw [List.length_append, List.length_cons] at hcount
  rw [List.length_append] at hroom
  have hmax : editorMaxLineLength = 1024 := rfl
  rw [editorInsertChar, if_neg (by omega), if_neg (by omega), hline]
  simp only [bind, Except.bind, hbuffer.cstring_eq, List.length_append]
  rw [if_neg (by omega), Int.toNat_natCast,
    show front.length + behind.length + 1 - front.length = behind.length + 1 by omega]
  simp only [hcells, hstore, hput]

theorem insertChar_full (h : Shows editor (above ++ line :: below))
    (hfull : editorMaxLineLength - 1 ≤ line.length) (position : Int) (c : UInt8) :
    editorInsertChar editor above.length position c = .ok (-1, editor) := by
  have hcount := h.count
  rw [List.length_append, List.length_cons] at hcount
  obtain ⟨buffer, hline, hbuffer⟩ := h.lineAt_eq
  rw [editorInsertChar, if_neg (by omega), hline]
  simp only [bind, Except.bind, hbuffer.cstring_eq]
  rw [if_pos hfull, ite_self]

theorem insertChar_behind (h : Shows editor (above ++ line :: below))
    (hbehind : line.length < position) (hposition : position < editorMaxLineLength - 1) :
    Answers (editorInsertChar editor above.length position x) editor (above ++ line :: below) := by
  have hcount := h.count
  obtain ⟨buffer, hline, hbuffer⟩ := h.lineAt_eq
  obtain ⟨buffer', hstore, hbuffer'⟩ := hbuffer.stored_behind (x := x) hbehind (by omega)
  obtain ⟨editor', hput, hedited, hshows⟩ := h.putLine_eq hbuffer'
  refine ⟨editor', ?_, hedited, hshows⟩
  rw [List.length_append, List.length_cons] at hcount
  have hmax : editorMaxLineLength = 1024 := rfl
  rw [editorInsertChar, if_neg (by omega), if_neg (by omega), hline]
  simp only [bind, Except.bind, hbuffer.cstring_eq]
  rw [if_neg (by omega), Int.toNat_natCast,
    show line.length + 1 - position = 0 by omega]
  simp only [shiftUp, hstore, hput]

theorem deleteChar (h : Shows editor (above ++ (front ++ x :: behind) :: below)) :
    Answers (editorDeleteChar editor above.length front.length) editor
      (above ++ (front ++ behind) :: below) := by
  have hcount := h.count
  obtain ⟨buffer, hline, hbuffer⟩ := h.lineAt_eq
  obtain ⟨buffer', hdelete, hbuffer'⟩ := hbuffer.deleted
  obtain ⟨editor', hput, hedited, hshows⟩ := h.putLine_eq hbuffer'
  refine ⟨editor', ?_, hedited, hshows⟩
  rw [List.length_append, List.length_cons] at hcount
  rw [editorDeleteChar, if_neg (by omega), if_neg (by omega), hline]
  simp only [bind, Except.bind, hbuffer.cstring_eq, List.length_append, List.length_cons]
  rw [if_neg (by omega), Int.toNat_natCast,
    show front.length + (behind.length + 1) - front.length = behind.length + 1 by omega]
  simp only [hdelete, hput]

end Shows

end ZoraVM.Editors
