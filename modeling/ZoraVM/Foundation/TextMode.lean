import ZoraVM.Foundation.Lines

namespace ZoraVM.Foundation

def lineFeed : UInt8 := 10
def carriageReturn : UInt8 := 13
def endOfText : UInt8 := 26

-- What a stream opened in text mode puts into the file for the bytes written to it.
def textWrite : Bytes → Bytes
  | [] => []
  | c :: rest =>
    if c = lineFeed then carriageReturn :: lineFeed :: textWrite rest else c :: textWrite rest

def textRead : Bytes → Bytes
  | [] => []
  | c :: rest =>
    if c = endOfText then []
    else if c = carriageReturn ∧ rest.head? = some lineFeed then textRead rest
    else c :: textRead rest

variable {bytes : Bytes} {c : UInt8}

theorem head_textWrite (bytes : Bytes) : (textWrite bytes).head? ≠ some lineFeed := by
  cases bytes with
  | nil => simp [textWrite]
  | cons c rest =>
    rw [textWrite]
    split
    · simp [carriageReturn, lineFeed]
    · next hc => simpa using hc

theorem textRead_textWrite (bytes : Bytes) :
    textRead (textWrite bytes) = bytes.takeWhile (· ≠ endOfText) := by
  induction bytes with
  | nil => rfl
  | cons c rest ih =>
    rw [textWrite]
    by_cases hfeed : c = lineFeed
    · subst hfeed
      have hreturn : carriageReturn ≠ endOfText := by decide
      have hline : lineFeed ≠ endOfText := by decide
      have hnot : lineFeed ≠ carriageReturn := by decide
      rw [if_pos rfl, textRead, if_neg hreturn, if_pos ⟨rfl, rfl⟩, textRead, if_neg hline,
        if_neg fun h => hnot h.1, ih]
      simp [hline]
    · rw [if_neg hfeed, textRead]
      by_cases hend : c = endOfText
      · simp [hend]
      · rw [if_neg hend, if_neg fun h => head_textWrite rest h.2, ih]
        simp [hend]

theorem textRead_sublist (bytes : Bytes) : (textRead bytes).Sublist bytes := by
  induction bytes with
  | nil => exact List.Sublist.refl []
  | cons c rest ih =>
    rw [textRead]
    split
    · exact List.nil_sublist _
    · split
      · exact ih.cons c
      · exact ih.cons_cons c

theorem endOfText_not_mem_textRead (bytes : Bytes) : endOfText ∉ textRead bytes := by
  induction bytes with
  | nil => exact List.not_mem_nil
  | cons c rest ih =>
    rw [textRead]
    split_ifs with hend hreturn
    · exact List.not_mem_nil
    · exact ih
    · exact List.not_mem_cons_of_ne_of_not_mem (Ne.symm hend) ih

section Reading

def fgets (size : Nat) (stream : Bytes) : Bytes × Bytes :=
  let line := stream.take (size - 1)
  let count := min ((line.takeWhile (· ≠ lineFeed)).length + 1) line.length
  (stream.take count, stream.drop count)

def fgetsLines (size : Nat) : Nat → Bytes → List Bytes
  | 0, _ => []
  | fuel + 1, stream =>
    if stream = [] then []
    else (fgets size stream).1 :: fgetsLines size fuel (fgets size stream).2

variable {size fuel : Nat} {line stream : Bytes} {lines : List Bytes}

theorem fgets_ended (hplain : lineFeed ∉ line) (hsize : line.length + 1 < size) (rest : Bytes) :
    fgets size (line ++ lineFeed :: rest) = (line ++ [lineFeed], rest) := by
  have hall : ∀ c ∈ line, decide (c ≠ lineFeed) = true := fun c hc => by
    simpa using ne_of_mem_of_not_mem hc hplain
  obtain ⟨k, hk⟩ : ∃ k, size - 1 - line.length = k + 1 := ⟨size - 1 - line.length - 1, by omega⟩
  have htake : (line ++ lineFeed :: rest).take (size - 1) = line ++ lineFeed :: rest.take k := by
    rw [List.take_append, List.take_of_length_le (by omega), hk, List.take_succ_cons]
  have hcount : min (line.length + 1) (line ++ lineFeed :: rest.take k).length =
      line.length + 1 := by
    rw [List.length_append, List.length_cons]
    omega
  simp only [fgets, htake, List.takeWhile_append_of_pos hall, List.takeWhile_cons, ne_eq,
    not_true_eq_false, decide_false, Bool.false_eq_true, if_false, List.append_nil, hcount]
  rw [List.append_cons, ← List.length_singleton (a := lineFeed), ← List.length_append,
    List.take_left, List.drop_left]

theorem fgetsLines_ended (h : ∀ line ∈ lines, lineFeed ∉ line ∧ line.length + 1 < size)
    (hfuel : lines.length ≤ fuel) :
    fgetsLines size fuel (endedLines lineFeed lines) = lines.map (· ++ [lineFeed]) := by
  induction lines generalizing fuel with
  | nil => cases fuel <;> rfl
  | cons line lines ih =>
    obtain ⟨fuel, rfl⟩ : ∃ k, fuel = k + 1 := ⟨fuel - 1, by simp at hfuel; omega⟩
    obtain ⟨hplain, hsize⟩ := h line List.mem_cons_self
    have htext : endedLines lineFeed (line :: lines) =
        line ++ lineFeed :: endedLines lineFeed lines := by
      simp [endedLines]
    rw [fgetsLines, htext, if_neg (by simp), fgets_ended hplain hsize, List.map_cons,
      ih (fun l hl => h l (List.mem_cons_of_mem line hl)) (by simpa using hfuel)]

theorem mem_fgetsLines {b : UInt8} (hline : line ∈ fgetsLines size fuel stream) (hb : b ∈ line) :
    b ∈ stream := by
  induction fuel generalizing stream with
  | zero => exact absurd hline List.not_mem_nil
  | succ fuel ih =>
    rw [fgetsLines] at hline
    split at hline
    · exact absurd hline List.not_mem_nil
    · rcases List.mem_cons.mp hline with rfl | hline
      · exact List.mem_of_mem_take hb
      · exact List.mem_of_mem_drop (ih hline)

end Reading

end ZoraVM.Foundation
