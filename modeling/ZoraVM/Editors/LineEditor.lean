import ZoraVM.Foundation.Memory
import ZoraVM.Foundation.Shifts
import ZoraVM.Foundation.WordLoop

namespace ZoraVM.Editors

open Foundation

def editorMaxLineLength : Nat := 1024

def editorDefaultMaxLines : Nat := 10000

-- A null pointer in the table is `none`; the table has max_lines of them.
structure EditorState where
  lines : List (Option Bytes)
  lineCount : Nat
  cursorY : Int
  cursorX : Int
  scrollOffset : Int
  maxLines : Nat
  filename : Bytes
  modified : Bool
  deriving DecidableEq, Repr

def blankLine : Bytes := List.replicate editorMaxLineLength 0

def editorCreate (maxLines : Int) : EditorState :=
  let maxLines := if maxLines > 0 then maxLines.toNat else editorDefaultMaxLines
  { lines := some blankLine :: List.replicate (maxLines - 1) none
    lineCount := 1
    cursorY := 0
    cursorX := 0
    scrollOffset := 0
    maxLines := maxLines
    filename := []
    modified := false }

namespace EditorState

def lineAt (editor : EditorState) (lineNum : Int) : Outcome Bytes := do
  if lineNum < 0 then .error .bufferOverflow
  else
    match ← load editor.lines lineNum.toNat with
    | some line => .ok line
    | none => .error .wildPointer

def edited (editor : EditorState) (lines : List (Option Bytes)) (lineCount : Nat) : EditorState :=
  { editor with lines := lines, lineCount := lineCount, modified := true }

def putLine (editor : EditorState) (lineNum : Int) (line : Bytes) : Outcome EditorState := do
  let lines ← store editor.lines lineNum.toNat (some line)
  .ok (editor.edited lines editor.lineCount)

end EditorState

def editorInsertLine (editor : EditorState) (lineNum : Int) : Outcome (Int × EditorState) :=
  if lineNum < 0 ∨ lineNum > editor.lineCount then .ok (-1, editor)
  else if editor.lineCount ≥ editor.maxLines then .ok (-1, editor)
  else do
    let lines ← shiftUp lineNum.toNat (editor.lineCount - lineNum.toNat) editor.lines
    let lines ← store lines lineNum.toNat (some blankLine)
    .ok (0, editor.edited lines (editor.lineCount + 1))

def editorDeleteLine (editor : EditorState) (lineNum : Int) : Outcome (Int × EditorState) :=
  if lineNum < 0 ∨ lineNum ≥ editor.lineCount then .ok (-1, editor)
  else if editor.lineCount ≤ 1 then do
    let line ← store (← editor.lineAt 0) 0 0
    .ok (0, ← editor.putLine 0 line)
  else do
    -- A freed line is not read again.
    let lines ← store editor.lines lineNum.toNat none
    let lines ← shiftDown lineNum.toNat (editor.lineCount - 1 - lineNum.toNat) lines
    .ok (0, editor.edited lines (editor.lineCount - 1))

def strcpy (dest src : Bytes) : Outcome Bytes := do
  let text ← cstring src
  if text.length < dest.length then .ok (splice dest 0 (text ++ [0])) else .error .bufferOverflow

def editorSplitLine (editor : EditorState) (lineNum position : Int) :
    Outcome (Int × EditorState) :=
  if lineNum < 0 ∨ lineNum ≥ editor.lineCount then .ok (-1, editor)
  else do
    let text ← cstring (← editor.lineAt lineNum)
    if position < 0 ∨ position > text.length then .ok (-1, editor)
    else if editor.lineCount ≥ editor.maxLines then .ok (-1, editor)
    else do
      let (result, editor) ← editorInsertLine editor (lineNum + 1)
      if result ≠ 0 then .ok (-1, editor)
      else do
        let line ← editor.lineAt lineNum
        let below ← strcpy (← editor.lineAt (lineNum + 1)) (line.drop position.toNat)
        let editor ← editor.putLine (lineNum + 1) below
        let line ← store line position.toNat 0
        .ok (0, ← editor.putLine lineNum line)

def editorInsertChar (editor : EditorState) (lineNum position : Int) (ch : UInt8) :
    Outcome (Int × EditorState) :=
  if lineNum < 0 ∨ lineNum ≥ editor.lineCount then .ok (-1, editor)
  else if position < 0 ∨ position > (editorMaxLineLength : Int) - 2 then .ok (-1, editor)
  else do
    let line ← editor.lineAt lineNum
    let len := (← cstring line).length
    if len ≥ editorMaxLineLength - 1 then .ok (-1, editor)
    else do
      -- No turn of the loop where the position is beyond the end of the string.
      let line ← shiftUp position.toNat (len + 1 - position.toNat) line
      let line ← store line position.toNat ch
      .ok (0, ← editor.putLine lineNum line)

def editorDeleteChar (editor : EditorState) (lineNum position : Int) :
    Outcome (Int × EditorState) :=
  if lineNum < 0 ∨ lineNum ≥ editor.lineCount then .ok (-1, editor)
  else if position < 0 then .ok (-1, editor)
  else do
    let line ← editor.lineAt lineNum
    let len := (← cstring line).length
    if position ≥ len then .ok (-1, editor)
    else do
      let line ← shiftDown position.toNat (len - position.toNat) line
      .ok (0, ← editor.putLine lineNum line)

structure Spells (line text : Bytes) : Prop where
  plain : 0 ∉ text
  size : line.length = editorMaxLineLength
  ended : ∃ tail, line = text ++ 0 :: tail

namespace Spells

variable {line text front behind : Bytes} {x : UInt8}

theorem length_lt (h : Spells line text) : text.length < editorMaxLineLength := by
  obtain ⟨tail, hline⟩ := h.ended
  rw [← h.size, hline]
  simp

theorem cstring_eq (h : Spells line text) : cstring line = .ok text := by
  obtain ⟨tail, hline⟩ := h.ended
  rw [hline]
  exact cstring_ended h.plain tail

theorem blank : Spells blankLine [] :=
  ⟨List.not_mem_nil, List.length_replicate, List.replicate (editorMaxLineLength - 1) 0, rfl⟩

theorem of_append {tail : Bytes} (hplain : 0 ∉ text)
    (hsize : (text ++ 0 :: tail).length = editorMaxLineLength) : Spells (text ++ 0 :: tail) text :=
  ⟨hplain, hsize, tail, rfl⟩

theorem of_mem (hsize : line.length = editorMaxLineLength) (hzero : 0 ∈ line) :
    Spells line (line.takeWhile (· ≠ 0)) := by
  obtain ⟨text, tail, rfl, hplain⟩ := List.eq_append_cons_of_mem hzero
  rw [text_append_zero, text_eq_self_iff.mpr hplain]
  exact of_append hplain hsize

theorem truncated (h : Spells line (front ++ behind)) :
    ∃ line', store line front.length 0 = .ok line' ∧ Spells line' front := by
  obtain ⟨tail, hline⟩ := h.ended
  have hplain : 0 ∉ front := fun hzero => h.plain (List.mem_append_left behind hzero)
  have hsize := h.size
  cases behind with
  | nil =>
    rw [List.append_nil] at hline
    exact ⟨front ++ 0 :: tail, hline ▸ store_middle front tail 0 0, of_append hplain (hline ▸ hsize)⟩
  | cons c behind =>
    rw [List.append_assoc, List.cons_append] at hline
    refine ⟨front ++ 0 :: (behind ++ 0 :: tail), hline ▸ store_middle front _ c 0, ?_⟩
    apply of_append hplain
    rw [hline] at hsize
    simpa using hsize

theorem copied {dest : Bytes} (h : Spells line (front ++ behind))
    (hdest : dest.length = editorMaxLineLength) :
    ∃ line', strcpy dest (line.drop front.length) = .ok line' ∧ Spells line' behind := by
  obtain ⟨tail, hline⟩ := h.ended
  have hplain : 0 ∉ behind := fun hzero => h.plain (List.mem_append_right front hzero)
  have hlen : behind.length < editorMaxLineLength := by
    have := h.length_lt
    rw [List.length_append] at this
    omega
  have hdrop : line.drop front.length = behind ++ 0 :: tail := by
    rw [hline, List.append_assoc, List.drop_left]
  have hsplice : splice dest 0 (behind ++ [0]) = behind ++ 0 :: dest.drop (behind.length + 1) := by
    simp [splice]
  refine ⟨splice dest 0 (behind ++ [0]), ?_, ?_⟩
  · rw [strcpy, hdrop, cstring_ended hplain]
    simp [bind, Except.bind, hdest, hlen]
  · rw [hsplice]
    apply of_append hplain
    simp only [List.length_append, List.length_cons, List.length_drop, hdest]
    omega

theorem room_above (h : Spells line (front ++ behind))
    (hroom : (front ++ behind).length < editorMaxLineLength - 1) :
    ∃ y tail, line = front ++ (behind ++ [0]) ++ y :: tail := by
  obtain ⟨tail, hline⟩ := h.ended
  have hsize := h.size
  cases tail with
  | nil =>
    rw [hline] at hsize
    simp only [List.length_append, List.length_singleton] at hsize hroom
    omega
  | cons y tail => exact ⟨y, tail, by simp [hline]⟩

theorem inserted (h : Spells line (front ++ behind))
    (hroom : (front ++ behind).length < editorMaxLineLength - 1) :
    ∃ line', (shiftUp front.length (behind.length + 1) line >>= fun cells =>
        store cells front.length x) = .ok line' ∧
      Spells line' (if x = 0 then front else front ++ x :: behind) := by
  obtain ⟨y, tail, hline⟩ := h.room_above hroom
  have hsize := h.size
  have hplain := h.plain
  have hstored := shiftUp_store front (behind ++ [0]) tail y x
  rw [List.length_append, List.length_singleton, ← hline] at hstored
  refine ⟨_, hstored, ?_⟩
  rw [hline] at hsize
  rw [List.mem_append, not_or] at hplain
  split
  · next hx =>
    subst hx
    rw [List.append_assoc, List.cons_append]
    apply of_append hplain.1
    simp only [List.length_append, List.length_cons, List.length_nil] at hsize ⊢
    omega
  · next hx =>
    rw [show front ++ x :: (behind ++ [0]) ++ tail = front ++ x :: behind ++ 0 :: tail by simp]
    apply of_append
    · simp [hplain, Ne.symm hx]
    · simp only [List.length_append, List.length_cons, List.length_nil] at hsize ⊢
      omega

theorem stored_behind {position : Nat} (h : Spells line text) (hbehind : text.length < position)
    (hposition : position < editorMaxLineLength) :
    ∃ line', store line position x = .ok line' ∧ Spells line' text := by
  obtain ⟨tail, hline⟩ := h.ended
  have hsize := h.size
  refine ⟨line.set position x, by rw [store, if_pos (by omega)], h.plain, by simpa using hsize, ?_⟩
  obtain ⟨k, rfl⟩ : ∃ k, position = text.length + (k + 1) := ⟨position - text.length - 1, by omega⟩
  exact ⟨tail.set k x, by rw [hline, List.set_append_right _ _ (by omega)]; simp⟩

theorem deleted (h : Spells line (front ++ x :: behind)) :
    ∃ line', shiftDown front.length (behind.length + 1) line = .ok line' ∧
      Spells line' (front ++ behind) := by
  obtain ⟨tail, hline⟩ := h.ended
  have hsize := h.size
  have hplain := h.plain
  obtain ⟨last, hlast⟩ := shiftDown_moved front (behind ++ [0]) tail x
  have hcells : front ++ x :: (behind ++ [0]) ++ tail = line := by simp [hline]
  rw [List.length_append, List.length_singleton, hcells] at hlast
  refine ⟨_, hlast, ?_⟩
  rw [show front ++ (behind ++ [0]) ++ last :: tail = front ++ behind ++ 0 :: last :: tail by simp]
  apply of_append
  · simp only [List.mem_append, List.mem_cons, not_or] at hplain ⊢
    exact ⟨hplain.1, hplain.2.2⟩
  · rw [hline] at hsize
    simp only [List.length_append, List.length_cons] at hsize ⊢
    omega

end Spells

end ZoraVM.Editors
