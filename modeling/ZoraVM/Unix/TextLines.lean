import ZoraVM.Foundation.Words
import ZoraVM.Unix.TextProc
import ZoraVM.Vfs.BlockEnds

namespace ZoraVM.Unix

open Foundation Vfs

section Lines

def separated (lines : List Bytes) (trailing : Bool) : Bytes :=
  [newline].intercalate lines ++ if trailing then [newline] else []

structure PlainLine (line : Bytes) : Prop where
  ne_nil : line ≠ []
  no_newline : newline ∉ line
  no_zero : 0 ∉ line

-- A zero ends the block of the file, as where it was loaded from the host.
def Terminated (s : VfsState) (path : Bytes) : Prop :=
  ∃ p size t block, vfsReadFile s path = .ok (some (some p, size), t) ∧
    t.blocks.get p = some block ∧ 0 ∈ block

def LineEnds (s : VfsState) (path : Bytes) (trailing : Bool) : List Bytes → Prop
  | [] => Terminated s path
  | [_] => trailing = true ∨ Terminated s path
  | _ :: _ :: _ => True

variable {lines : List Bytes} {line : Bytes} {trailing : Bool}

theorem separated_nil (trailing : Bool) : ∀ c ∈ separated [] trailing, c ∈ [newline] := by
  intro c hc
  cases trailing with
  | true => exact hc
  | false => cases hc

theorem separated_single (line : Bytes) (trailing : Bool) :
    separated [line] trailing = line ++ if trailing then [newline] else [] := by
  rw [separated, List.intercalate_singleton]

theorem separated_first (line next : Bytes) (lines : List Bytes) (trailing : Bool) :
    separated (line :: next :: lines) trailing =
      line ++ newline :: separated (next :: lines) trailing := by
  rw [separated, List.intercalate_cons_cons]
  simp [separated]

theorem zero_not_mem_separated (h : ∀ line ∈ lines, PlainLine line) (trailing : Bool) :
    0 ∉ separated lines trailing := by
  have hfeed : (0 : UInt8) ≠ newline := by decide
  have hend : 0 ∉ (if trailing then [newline] else []) := by
    cases trailing <;> simp [hfeed]
  rw [separated, List.mem_append, not_or]
  refine ⟨fun hin => ?_, hend⟩
  rcases mem_joined hin with hzero | ⟨line, hline, hin⟩
  · exact hfeed hzero
  · exact (h line hline).no_zero hin

end Lines

section FirstSearch

variable {s : VfsState} {path line : Bytes} {lines : List Bytes} {trailing : Bool}

theorem strtok_line (hline : PlainLine line) {d : UInt8} (hd : d ∈ [newline] ∨ d = 0)
    (rest : Bytes) : ∃ t, strtok [newline] (strtokStart (line ++ d :: rest)) = .ok (some line, t) := by
  have hword : ∀ c ∈ line, c ∉ [newline] ∧ c ≠ 0 := fun c hc =>
    ⟨by simpa using ne_of_mem_of_not_mem hc hline.no_newline,
      ne_of_mem_of_not_mem hc hline.no_zero⟩
  have hskip : ∀ c ∈ ([] : Bytes), c ∈ [newline] := by simp
  exact ⟨_, strtok_word hskip hline.ne_nil hword hd rfl rfl⟩

theorem strtok_line_unended (hline : PlainLine line) :
    strtok [newline] (strtokStart line) = .error .bufferOverflow := by
  have hword : ∀ c ∈ line, c ∉ [newline] ∧ c ≠ 0 := fun c hc =>
    ⟨by simpa using ne_of_mem_of_not_mem hc hline.no_newline,
      ne_of_mem_of_not_mem hc hline.no_zero⟩
  have hskip : ∀ c ∈ ([] : Bytes), c ∈ [newline] := by simp
  exact strtok_unended hskip hword rfl rfl

theorem terminated_iff {p size : Nat} {t : VfsState} {block : Bytes}
    (hread : vfsReadFile s path = .ok (some (some p, size), t))
    (hblock : t.blocks.get p = some block) : Terminated s path ↔ 0 ∈ block := by
  constructor
  · rintro ⟨q, size', u, block', hcall, hblock', hin⟩
    have hsame := hread.symm.trans hcall
    simp only [Except.ok.injEq, Prod.mk.injEq, Option.some.injEq] at hsame
    obtain ⟨⟨rfl, rfl⟩, rfl⟩ := hsame
    obtain rfl := Option.some.inj (hblock.symm.trans hblock')
    exact hin
  · exact fun hin => ⟨p, size, t, block, hread, hblock, hin⟩

theorem zero_behind_iff {text rest : Bytes} (hzero : 0 ∉ text) (hrest : rest = [] ∨ rest = [0]) :
    0 ∈ text ++ rest ↔ rest = [0] := by
  rcases hrest with rfl | rfl
  · simpa using hzero
  · simp

theorem first_search (hreach : Reachable s)
    (hread : readBytes s path = some (separated lines trailing))
    (hlines : ∀ line ∈ lines, PlainLine line) :
    ∃ p n t block, vfsReadFile s path = .ok (some (some p, n), t) ∧ t.blocks.get p = some block ∧
      (LineEnds s path trailing lines ∧
          (∃ u, strtok [newline] (strtokStart block) = .ok (lines.head?, u)) ∨
        ¬ LineEnds s path trailing lines ∧
          strtok [newline] (strtokStart block) = .error .bufferOverflow) := by
  obtain ⟨p, t, rest, hcall, hblock, hrest⟩ := hreach.wellEnded.read hread
  refine ⟨p, _, t, _, hcall, hblock, ?_⟩
  have hterminated : Terminated s path ↔ rest = [0] := (terminated_iff hcall hblock).trans
    (zero_behind_iff (zero_not_mem_separated hlines trailing) hrest)
  match lines with
  | [] =>
    have hskip := separated_nil trailing
    rw [LineEnds, hterminated]
    rcases hrest with rfl | rfl
    · right
      have hno : ∀ c ∈ ([] : Bytes), c ∉ [newline] ∧ c ≠ 0 := by simp
      exact ⟨by simp, strtok_unended hskip hno rfl rfl⟩
    · exact .inl ⟨rfl, _, strtok_skips (by decide) hskip rfl rfl⟩
  | [line] =>
    have hline := hlines line List.mem_cons_self
    rw [LineEnds, hterminated, separated_single]
    cases trailing with
    | true =>
      rw [if_pos rfl, List.append_assoc, List.singleton_append]
      exact .inl ⟨.inl rfl, strtok_line hline (.inl List.mem_cons_self) rest⟩
    | false =>
      rw [if_neg Bool.false_ne_true, List.append_nil]
      rcases hrest with rfl | rfl
      · rw [List.append_nil]
        exact .inr ⟨by simp, strtok_line_unended hline⟩
      · exact .inl ⟨.inr rfl, strtok_line hline (.inr rfl) []⟩
  | line :: next :: lines =>
    rw [separated_first, List.append_assoc, List.cons_append]
    exact .inl ⟨trivial, strtok_line (hlines line List.mem_cons_self) (.inl List.mem_cons_self) _⟩

end FirstSearch

end ZoraVM.Unix
