import ZoraVM.Editors.EditorRun
import ZoraVM.Foundation.Lines
import ZoraVM.Unix.GrepPartition

namespace ZoraVM.Editors

open Foundation Vfs Unix

section Source

def contentFrom (editor : EditorState) (i : Nat) : Nat → Outcome Bytes
  | 0 => .ok []
  | left + 1 => do
    let line ← cstring (← editor.lineAt i)
    let content ← contentFrom editor (i + 1) left
    .ok (line ++ newline :: content)

def savedContent (editor : EditorState) : Outcome Bytes := contentFrom editor 0 editor.lineCount

def editorSave (s : VfsState) (editor : EditorState) (filename : Option Bytes) :
    Outcome (Int × EditorState × VfsState) :=
  let savePath := filename.getD editor.filename
  if savePath = [] then .ok (-1, editor, s)
  else do
    let content ← savedContent editor
    let (result, s) ← vfsWriteFile s savePath (.bytes content) content.length
    let saved := editorSaveFile editor filename (result = 0)
    .ok (saved.1, saved.2, s)

end Source

section Saving

variable {editor : EditorState} {text above below : List Bytes}

theorem contentFrom_eq (h : Shows editor (above ++ below)) :
    contentFrom editor above.length below.length = .ok (endedLines newline below) := by
  induction below generalizing above with
  | nil => rfl
  | cons line below ih =>
    obtain ⟨buffer, hline, hbuffer⟩ := h.lineAt_eq
    rw [List.append_cons] at h
    have hrest := ih h
    rw [List.length_append, List.length_singleton] at hrest
    rw [List.length_cons, contentFrom, hline]
    simp only [bind, Except.bind, hbuffer.cstring_eq, hrest, endedLines, List.flatMap_cons,
      List.append_assoc, List.singleton_append]

theorem savedContent_eq (h : Shows editor text) :
    savedContent editor = .ok (endedLines newline text) := by
  rw [savedContent, h.count]
  exact @contentFrom_eq editor [] text h

end Saving

section Loading

variable {maxLines fuel : Nat} {text lines : List Bytes} {rest : Bytes}

structure Storable (line : Bytes) : Prop where
  fits : line.length < Unix.editorMaxLineLength
  no_newline : newline ∉ line
  no_zero : 0 ∉ line

theorem editorLines_ended (h : ∀ line ∈ text, Storable line)
    (hroom : lines.length + text.length ≤ maxLines) (fuel : Nat) (rest : Bytes) :
    editorLines maxLines (text.length + fuel) (endedLines newline text ++ rest) lines =
      editorLines maxLines fuel rest (lines ++ text) := by
  induction text generalizing lines with
  | nil => simp [endedLines]
  | cons line text ih =>
    have hline := h line List.mem_cons_self
    have hword : (line ++ newline :: (endedLines newline text ++ rest)).takeWhile
        (fun c => c ≠ newline ∧ c ≠ 0) = line := by
      rw [List.takeWhile_append_of_pos]
      · simp
      · intro c hc
        simpa using ⟨ne_of_mem_of_not_mem hc hline.no_newline, ne_of_mem_of_not_mem hc hline.no_zero⟩
    have htext : endedLines newline (line :: text) ++ rest =
        line ++ newline :: (endedLines newline text ++ rest) := by
      simp [endedLines]
    rw [List.length_cons] at hroom
    have hleft : ¬ (newline = 0 ∨ maxLines ≤ lines.length) := by
      rw [not_or]
      exact ⟨by decide, by omega⟩
    rw [htext, List.length_cons, Nat.add_right_comm, editorLines, hword, List.drop_left]
    simp only [hleft, if_false, clip_of_length_lt hline.fits]
    rw [ih (fun l hl => h l (List.mem_cons_of_mem line hl))
      (by rw [List.length_append, List.length_singleton]; omega), List.append_assoc,
      List.singleton_append]

theorem length_le_endedLines (text : List Bytes) : text.length ≤ (endedLines newline text).length := by
  induction text with
  | nil => exact Nat.zero_le _
  | cons line text ih =>
    simp only [endedLines, List.flatMap_cons, List.length_append, List.length_cons] at ih ⊢
    omega

theorem editorParse_ended (hne : text ≠ []) (h : ∀ line ∈ text, Storable line)
    (hroom : text.length ≤ maxLines) :
    editorParse maxLines (endedLines newline text ++ [0]) = .ok text := by
  have hlines := @editorLines_ended maxLines text [] h (by simpa using hroom)
    ((endedLines newline text).length - text.length + 2) [0]
  have hlen := length_le_endedLines text
  have hfuel : text.length + ((endedLines newline text).length - text.length + 2) =
      (endedLines newline text ++ [0]).length + 1 := by
    rw [List.length_append, List.length_singleton]
    omega
  rw [hfuel, List.nil_append] at hlines
  have hend : editorLines maxLines ((endedLines newline text).length - text.length + 2) [0] text =
      .ok (text, [0]) := by
    simp [editorLines]
  rw [editorParse, hlines, hend]
  simp [bind, Except.bind, hne]

-- Behind the last newline strchr reads on beyond the block.
theorem editorParse_overflow (h : ∀ line ∈ text, Storable line) (hroom : text.length ≤ maxLines) :
    editorParse maxLines (endedLines newline text) = .error .bufferOverflow := by
  have hlines := @editorLines_ended maxLines text [] h (by simpa using hroom)
    ((endedLines newline text).length - text.length + 1) []
  have hlen := length_le_endedLines text
  have hfuel : text.length + ((endedLines newline text).length - text.length + 1) =
      (endedLines newline text).length + 1 := by omega
  rw [hfuel, List.append_nil, List.nil_append] at hlines
  rw [editorParse, hlines]
  rfl

end Loading

section RoundTrip

variable {s s' u : VfsState} {editor editor' : EditorState} {other : Editor} {text : List Bytes}
variable {path stored : Bytes}

theorem Shows.storable (h : Shows editor text) (hplain : ∀ line ∈ text, newline ∉ line) :
    ∀ line ∈ text, Storable line := by
  intro line hline
  obtain ⟨above, below, rfl⟩ := List.append_of_mem hline
  obtain ⟨_, _, hbuffer⟩ := h.lineAt_eq
  exact ⟨hbuffer.length_lt, hplain line hline, hbuffer.plain⟩

theorem zero_not_mem_endedLines (h : ∀ line ∈ text, Storable line) : 0 ∉ endedLines newline text := by
  intro hzero
  obtain ⟨line, hline, hin⟩ := List.mem_flatMap.mp hzero
  rcases List.mem_append.mp hin with hin | hin
  · exact (h line hline).no_zero hin
  · exact absurd (List.mem_singleton.mp hin) (by decide)

def LoadsLines (u : VfsState) (other : Editor) (path : Bytes) (text : List Bytes) : Prop :=
  ∃ other' u', editorLoadFile u other path = .ok (other', u') ∧ other'.lines = text

theorem load_ended_iff (hreach : Reachable u) (hne : text ≠ []) (h : ∀ line ∈ text, Storable line)
    (hroom : text.length ≤ other.maxLines) (hbytes : readBytes u path = some (endedLines newline text)) :
    LoadsLines u other path text ↔ Terminated u path := by
  obtain ⟨p, t, rest, hcall, hblock, hrest⟩ := hreach.wellEnded.read hbytes
  rw [terminated_iff hcall hblock, zero_behind_iff (zero_not_mem_endedLines h) hrest]
  rcases hrest with rfl | rfl
  · refine iff_of_false ?_ (by simp)
    rintro ⟨other', u', hload, -⟩
    rw [List.append_nil] at hblock
    simp only [editorLoadFile, hcall, blockText, hblock, editorParse_overflow h hroom, bind,
      Except.bind] at hload
    cases hload
  · refine iff_of_true ?_ rfl
    have hfree := release_held (Option.isSome_of_eq_some hblock)
    have hload : editorLoadFile u other path =
        .ok (editorNamed other text path, { t with blocks := t.blocks.free p }) := by
      simp only [editorLoadFile, hcall, blockText, hblock, editorParse_ended hne h hroom, hfree, bind,
        Except.bind]
    exact ⟨_, _, hload, if_neg hne⟩

theorem written_of_saved (hshows : Shows editor text)
    (hsave : editorSave s editor (some path) = .ok (0, editor', s')) :
    vfsWriteFile s path (.bytes (endedLines newline text)) (endedLines newline text).length =
      .ok (0, s') := by
  simp only [editorSave, Option.getD_some, savedContent_eq hshows, bind, Except.bind] at hsave
  split at hsave
  · cases hsave
  · rename_i hpath
    cases hwrite : vfsWriteFile s path (.bytes (endedLines newline text))
        (endedLines newline text).length with
    | error fault =>
      rw [hwrite] at hsave
      cases hsave
    | ok found =>
      obtain ⟨result, s₁⟩ := found
      rw [hwrite] at hsave
      simp only [Except.ok.injEq, Prod.mk.injEq] at hsave
      obtain ⟨hzero, -, rfl⟩ := hsave
      by_cases hresult : result = 0
      · rw [hresult]
      · simp [editorSaveFile, hpath, hresult] at hzero

theorem saved_lines_loaded_iff (hreach : Reachable u) (hshows : Shows editor text)
    (hplain : ∀ line ∈ text, newline ∉ line) (hroom : editor.lineCount ≤ other.maxLines)
    (hsave : editorSave s editor (some path) = .ok (0, editor', s')) :
    vfsWriteFile s path (.bytes (endedLines newline text)) (endedLines newline text).length =
        .ok (0, s') ∧
      (readBytes u path = some (endedLines newline text) →
        (LoadsLines u other path text ↔ Terminated u path)) := by
  rw [hshows.count] at hroom
  exact ⟨written_of_saved hshows hsave,
    load_ended_iff hreach hshows.nonempty (hshows.storable hplain) hroom⟩

end RoundTrip

section Concrete

def lineBuffer (line : Bytes) : Bytes := line ++ List.replicate (editorMaxLineLength - line.length) 0

def fruitEditor : EditorState :=
  { editorCreate 2 with
    lines := [some (lineBuffer (str "apple")), some (lineBuffer (str "kiwi"))]
    lineCount := 2 }

def emptyEditor (maxLines : Nat) (room : 0 < maxLines) : Editor := ⟨[[]], maxLines, [], false, room⟩

theorem spells_lineBuffer {line : Bytes} (hplain : 0 ∉ line)
    (hfits : line.length < editorMaxLineLength) :
    Spells (lineBuffer line) line := by
  refine ⟨hplain, ?_, List.replicate (editorMaxLineLength - line.length - 1) 0, ?_⟩
  · rw [lineBuffer, List.length_append, List.length_replicate]
    omega
  · rw [lineBuffer, ← List.replicate_succ]
    congr
    omega

theorem shows_fruits : Shows fruitEditor [str "apple", str "kiwi"] := by
  refine ⟨by decide, rfl, rfl, fruitEditor.lines, [], by simp,
    .cons ⟨_, rfl, ?_⟩ (.cons ⟨_, rfl, ?_⟩ .nil)⟩
  · exact spells_lineBuffer (by decide) (by decide)
  · exact spells_lineBuffer (by decide) (by decide)

theorem fruits_saved_and_loaded : ∃ editor' s',
    editorSave (mountedText fruits) fruitEditor (some (str "/m/f")) = .ok (0, editor', s') ∧
      LoadsLines (mountedText fruits) (emptyEditor 2 (by decide)) (str "/m/f")
        [str "apple", str "kiwi"] := by
  have hzero : (fun saved => saved.1) <$>
      editorSave (mountedText fruits) fruitEditor (some (str "/m/f")) = .ok 0 := by
    decide +kernel
  obtain ⟨⟨result, editor', s'⟩, hsave, rfl⟩ := Outcome.map_eq_ok.mp hzero
  have hroom : fruitEditor.lineCount ≤ (emptyEditor 2 (by decide)).maxLines := Nat.le_refl 2
  have hload := (saved_lines_loaded_iff reachable_fruits shows_fruits (by decide) hroom hsave).2
  exact ⟨editor', s', hsave, (hload read_fruits).mpr terminated_fruits⟩

theorem saved_file_unloadable : ∃ editor' s',
    editorSave oneFile (editorCreate 1) (some (str "/f")) = .ok (0, editor', s') ∧
      readBytes s' (str "/f") = some [newline] ∧
        editorLoadFile s' (emptyEditor 1 (by decide)) (str "/f") = .error .bufferOverflow := by
  have hrun : (editorSave oneFile (editorCreate 1) (some (str "/f")) >>= fun saved =>
      (pure (saved.1, readBytes saved.2.2 (str "/f"), (fun loaded => loaded.1.lines) <$>
        editorLoadFile saved.2.2 (emptyEditor 1 (by decide)) (str "/f")) :
          Outcome (Int × Option Bytes × Outcome (List Bytes)))) =
      .ok (0, some [newline], .error .bufferOverflow) := by
    decide +kernel
  obtain ⟨⟨result, editor', s'⟩, hsave, hrest⟩ := Outcome.bind_eq_ok.mp hrun
  simp only [pure, Except.pure, Except.ok.injEq, Prod.mk.injEq] at hrest
  obtain ⟨rfl, hread, hload⟩ := hrest
  refine ⟨editor', s', hsave, hread, ?_⟩
  cases hcall : editorLoadFile s' (emptyEditor 1 (by decide)) (str "/f") with
  | ok loaded =>
    rw [hcall] at hload
    cases hload
  | error fault =>
    rw [hcall] at hload
    exact congrArg Except.error (Except.error.inj hload)

end Concrete

end ZoraVM.Editors
