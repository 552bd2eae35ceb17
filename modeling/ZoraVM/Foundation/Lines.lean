import ZoraVM.Foundation.Words

namespace ZoraVM.Foundation

section Lines

variable {sep c : UInt8} {text rest line : Bytes} {lines : List Bytes}

-- A separator ends its line; nothing begins behind the last one.
def linesOf (sep : UInt8) : Bytes → List Bytes
  | [] => []
  | c :: text =>
    if c = sep then [] :: linesOf sep text
    else
      match linesOf sep text with
      | [] => [[c]]
      | line :: lines => (c :: line) :: lines

def endedLines (sep : UInt8) (lines : List Bytes) : Bytes := lines.flatMap fun line => line ++ [sep]

@[simp] theorem linesOf_nil : linesOf sep [] = [] := rfl

@[simp] theorem linesOf_sep (rest : Bytes) : linesOf sep (sep :: rest) = [] :: linesOf sep rest :=
  if_pos rfl

theorem linesOf_cons (h : c ≠ sep) (text : Bytes) :
    linesOf sep (c :: text) =
      (c :: (linesOf sep text).headD []) :: (linesOf sep text).tail := by
  rw [linesOf, if_neg h]
  cases linesOf sep text <;> rfl

theorem linesOf_append_sep (h : sep ∉ line) (rest : Bytes) :
    linesOf sep (line ++ sep :: rest) = line :: linesOf sep rest := by
  induction line with
  | nil => exact linesOf_sep rest
  | cons c line ih =>
    have hc : c ≠ sep := (List.ne_of_not_mem_cons h).symm
    rw [List.cons_append, linesOf_cons hc, ih (List.not_mem_of_not_mem_cons h)]
    rfl

theorem linesOf_line (h : sep ∉ line) (hne : line ≠ []) : linesOf sep line = [line] := by
  induction line with
  | nil => exact absurd rfl hne
  | cons c line ih =>
    have hc : c ≠ sep := (List.ne_of_not_mem_cons h).symm
    rw [linesOf_cons hc]
    cases line with
    | nil => rfl
    | cons d line => rw [ih (List.not_mem_of_not_mem_cons h) (List.cons_ne_nil _ _)]; rfl

theorem linesOf_eq_nil : linesOf sep text = [] ↔ text = [] := by
  cases text with
  | nil => simp
  | cons c text =>
    by_cases hc : c = sep
    · simp [hc]
    · simp [linesOf_cons hc]

theorem headD_cases (lines : List Bytes) : lines.headD [] = [] ∨ lines.headD [] ∈ lines := by
  cases lines with
  | nil => exact .inl rfl
  | cons line lines => exact .inr List.mem_cons_self

theorem mem_line (h : line ∈ linesOf sep text) : ∀ b ∈ line, b ∈ text ∧ b ≠ sep := by
  induction text generalizing line with
  | nil => cases h
  | cons c text ih =>
    intro b hb
    have hlater : ∀ {l}, l ∈ linesOf sep text → b ∈ l → b ∈ c :: text ∧ b ≠ sep := by
      intro l hl hbl
      exact ⟨List.mem_cons_of_mem c (ih hl b hbl).1, (ih hl b hbl).2⟩
    by_cases hc : c = sep
    · rw [hc, linesOf_sep] at h
      rcases List.mem_cons.mp h with rfl | h
      · cases hb
      · exact hlater h hb
    · rw [linesOf_cons hc] at h
      rcases List.mem_cons.mp h with rfl | h
      · rcases List.mem_cons.mp hb with rfl | hb
        · exact ⟨List.mem_cons_self, hc⟩
        · rcases headD_cases (linesOf sep text) with hnil | hmem
          · rw [hnil] at hb
            cases hb
          · exact hlater hmem hb
      · exact hlater (List.mem_of_mem_tail h) hb

theorem not_mem_of_linesOf (h : line ∈ linesOf sep text) : sep ∉ line :=
  fun hin => (mem_line h sep hin).2 rfl

theorem linesOf_endedLines (h : ∀ line ∈ lines, sep ∉ line) :
    linesOf sep (endedLines sep lines) = lines := by
  induction lines with
  | nil => rfl
  | cons line lines ih =>
    have hrest := ih fun l hl => h l (List.mem_cons_of_mem line hl)
    rw [endedLines, List.flatMap_cons, List.append_assoc, List.singleton_append,
      linesOf_append_sep (h line List.mem_cons_self)]
    exact congrArg (line :: ·) hrest

theorem linesOf_append (text rest : Bytes) :
    linesOf sep (text ++ sep :: rest) = linesOf sep (text ++ [sep]) ++ linesOf sep rest := by
  induction text with
  | nil => simp
  | cons c text ih =>
    by_cases hc : c = sep
    · rw [hc, List.cons_append, List.cons_append, linesOf_sep, linesOf_sep, ih]
      rfl
    · have hne : linesOf sep (text ++ [sep]) ≠ [] := by simp [linesOf_eq_nil]
      obtain ⟨first, others, hlines⟩ := List.exists_cons_of_ne_nil hne
      rw [List.cons_append, List.cons_append, linesOf_cons hc, linesOf_cons hc, ih, hlines]
      rfl

theorem linesOf_concat_sep (h : EndsInWord [sep] text) :
    linesOf sep (text ++ [sep]) = linesOf sep text := by
  rcases eq_or_split sep text with hs | ⟨a, b, rfl, hb⟩
  · obtain ⟨c, hc, _⟩ := h
    have hne : text ≠ [] := by
      rintro rfl
      cases hc
    rw [linesOf_append_sep hs, linesOf_line hs hne]
    rfl
  · rw [endsInWord_append_cons List.mem_cons_self] at h
    obtain ⟨c, hc, _⟩ := h
    have hne : b ≠ [] := by
      rintro rfl
      cases hc
    rw [List.append_assoc, List.cons_append, linesOf_append, linesOf_append_sep hb,
      linesOf_append a b, linesOf_line hb hne]
    rfl

theorem words_eq_filter (sep : UInt8) (text : Bytes) :
    words [sep] text = (linesOf sep text).filter fun line => !line.isEmpty := by
  by_cases hs : sep ∈ text
  · obtain ⟨a, b, htext, ha⟩ := List.eq_append_cons_of_mem hs
    have hrest := words_eq_filter sep b
    have hword : words [sep] a = [a].filter fun line => !line.isEmpty := by
      by_cases hne : a = []
      · simp [hne]
      · rw [words_of_word hne fun c hc => by simpa using ne_of_mem_of_not_mem hc ha]
        simp [hne]
    rw [htext, words_append_cons List.mem_cons_self, linesOf_append_sep ha, hrest, hword,
      ← List.filter_append]
    rfl
  · by_cases hne : text = []
    · simp [hne]
    · rw [words_of_word hne fun c hc => by simpa using ne_of_mem_of_not_mem hc hs,
        linesOf_line hs hne]
      simp [hne]
termination_by text.length
decreasing_by
  subst htext
  simp only [List.length_append, List.length_cons]
  omega

theorem words_eq_linesOf (h : ∀ line ∈ linesOf sep text, line ≠ []) :
    words [sep] text = linesOf sep text := by
  rw [words_eq_filter, List.filter_eq_self]
  intro line hline
  simpa using h line hline

theorem length_words_le (sep : UInt8) (text : Bytes) :
    (words [sep] text).length ≤ (linesOf sep text).length := by
  rw [words_eq_filter]
  exact List.length_filter_le _ _

theorem length_words_eq_iff : (words [sep] text).length = (linesOf sep text).length ↔
    ∀ line ∈ linesOf sep text, line ≠ [] := by
  rw [words_eq_filter, List.length_filter_eq_length_iff]
  simp

theorem length_linesOf_le (sep : UInt8) (text : Bytes) : (linesOf sep text).length ≤ text.length := by
  induction text with
  | nil => exact Nat.le_refl 0
  | cons c text ih =>
    by_cases hc : c = sep
    · rw [hc, linesOf_sep]
      exact Nat.succ_le_succ ih
    · rw [linesOf_cons hc, List.length_cons, List.length_tail, List.length_cons]
      omega

theorem length_endedLines_le (sep : UInt8) (text : Bytes) :
    (endedLines sep (linesOf sep text)).length ≤ text.length + 1 := by
  induction text with
  | nil => simp [endedLines]
  | cons c text ih =>
    by_cases hc : c = sep
    · rw [hc, linesOf_sep, endedLines, List.flatMap_cons, ← endedLines]
      simp only [List.length_append, List.length_cons, List.length_nil]
      omega
    · rw [linesOf_cons hc]
      cases hlines : linesOf sep text with
      | nil => simp [endedLines]
      | cons line lines =>
        rw [hlines] at ih
        simp only [endedLines, List.flatMap_cons, List.length_append, List.length_cons,
          List.length_nil, List.headD_cons, List.tail_cons] at ih ⊢
        omega

theorem length_endedLines_sublist (sep : UInt8) {some all : List Bytes} (h : some.Sublist all) :
    (endedLines sep some).length ≤ (endedLines sep all).length := by
  induction h with
  | slnil => exact Nat.le_refl _
  | cons line _ ih =>
    simp only [endedLines, List.flatMap_cons, List.length_append] at ih ⊢
    omega
  | cons_cons line _ ih =>
    simp only [endedLines, List.flatMap_cons, List.length_append] at ih ⊢
    omega

end Lines

section Joined

variable {sep : UInt8} {part : Bytes} {parts : List Bytes}

theorem intercalate_concat (hne : parts ≠ []) (part : Bytes) :
    [sep].intercalate (parts ++ [part]) = [sep].intercalate parts ++ sep :: part := by
  induction parts with
  | nil => exact absurd rfl hne
  | cons first parts ih =>
    cases parts with
    | nil =>
      rw [List.singleton_append, List.intercalate_cons_cons, List.intercalate_singleton,
        List.intercalate_singleton, List.append_assoc]
      rfl
    | cons next parts =>
      have hrest := ih (List.cons_ne_nil next parts)
      rw [List.cons_append] at hrest
      rw [List.cons_append, List.cons_append, List.intercalate_cons_cons, hrest,
        List.intercalate_cons_cons]
      simp

theorem intercalate_append_sep (hne : parts ≠ []) :
    [sep].intercalate parts ++ [sep] = endedLines sep parts := by
  induction parts with
  | nil => exact absurd rfl hne
  | cons first parts ih =>
    cases parts with
    | nil => simp [endedLines]
    | cons next parts =>
      rw [List.intercalate_cons_cons, endedLines, List.flatMap_cons, ← endedLines,
        ← ih (List.cons_ne_nil next parts)]
      simp

theorem intercalate_last {α : Type} (sep : List α) (parts : List (List α)) (part : List α) :
    sep.intercalate (parts ++ [part]) = parts.flatMap (· ++ sep) ++ part := by
  induction parts with
  | nil => exact List.intercalate_singleton
  | cons first parts ih =>
    rw [List.cons_append, List.intercalate_cons_of_ne_nil (by simp), ih, List.flatMap_cons,
      List.append_assoc (first ++ sep)]

theorem length_intercalate_add (sep : UInt8) (hne : parts ≠ []) :
    ([sep].intercalate parts).length + 1 = (endedLines sep parts).length := by
  rw [← intercalate_append_sep hne]
  simp

theorem length_intercalate_le_of_sublist {all : List Bytes} (h : parts.Sublist all) :
    ([sep].intercalate parts).length ≤ ([sep].intercalate all).length := by
  by_cases hne : parts = []
  · simp [hne]
  · have hall : all ≠ [] := by
      rintro rfl
      exact hne (List.sublist_nil.mp h)
    have hsub := length_endedLines_sublist sep h
    rw [← length_intercalate_add sep hne, ← length_intercalate_add sep hall] at hsub
    omega

theorem length_intercalate_linesOf_le (sep : UInt8) (text : Bytes) :
    ([sep].intercalate (linesOf sep text)).length ≤ text.length := by
  by_cases hne : linesOf sep text = []
  · simp [hne]
  · have hall := length_endedLines_le sep text
    rw [← length_intercalate_add sep hne] at hall
    omega

theorem length_intercalate_sublist {text : Bytes} (h : parts.Sublist (linesOf sep text)) :
    ([sep].intercalate parts).length ≤ text.length :=
  (length_intercalate_le_of_sublist h).trans (length_intercalate_linesOf_le sep text)

theorem intercalate_prefix (sep : UInt8) (parts more : List Bytes) :
    ∃ behind, [sep].intercalate (parts ++ more) = [sep].intercalate parts ++ behind := by
  induction more using List.reverseRecOn with
  | nil => exact ⟨[], by simp⟩
  | append_singleton more part ih =>
    obtain ⟨behind, hbehind⟩ := ih
    rw [← List.append_assoc]
    by_cases hne : parts ++ more = []
    · obtain ⟨rfl, rfl⟩ := List.append_eq_nil_iff.mp hne
      exact ⟨part, by simp⟩
    · rw [intercalate_concat hne, hbehind]
      exact ⟨behind ++ sep :: part, by simp⟩

theorem length_intercalate_le (sep : UInt8) (parts more : List Bytes) :
    ([sep].intercalate parts).length ≤ ([sep].intercalate (parts ++ more)).length := by
  obtain ⟨behind, hbehind⟩ := intercalate_prefix sep parts more
  rw [hbehind, List.length_append]
  omega

theorem words_plain {text word : Bytes} (h : word ∈ words [sep] text) : word ≠ [] ∧ sep ∉ word := by
  rw [words_eq_filter] at h
  obtain ⟨hline, hne⟩ := List.mem_filter.mp h
  exact ⟨by simpa using hne, not_mem_of_linesOf hline⟩

theorem words_sublist (sep : UInt8) (text : Bytes) : (words [sep] text).Sublist (linesOf sep text) := by
  rw [words_eq_filter]
  exact List.filter_sublist

theorem length_word_le {word text : Bytes} (h : word ∈ words [sep] text) : word.length ≤ text.length := by
  have hline := length_intercalate_sublist
    (List.singleton_sublist.mpr ((words_sublist sep text).subset h))
  rwa [List.intercalate_singleton] at hline

theorem length_word_lt {word text : Bytes} (hsep : sep ∈ text) (h : word ∈ words [sep] text) :
    word.length < text.length := by
  obtain ⟨a, b, rfl, _⟩ := List.eq_append_cons_of_mem hsep
  rw [words_append_cons List.mem_cons_self, List.mem_append] at h
  rw [List.length_append, List.length_cons]
  rcases h with h | h
  · have hle := length_word_le h
    omega
  · have hle := length_word_le h
    omega

theorem linesOf_intercalate (h : ∀ part ∈ parts, sep ∉ part) :
    linesOf sep ([sep].intercalate parts) =
      if parts.getLast? = some [] then parts.dropLast else parts := by
  induction parts using List.reverseRecOn with
  | nil => rfl
  | append_singleton parts part _ =>
    have hpart : sep ∉ part := h part (by simp)
    have hends : linesOf sep (endedLines sep parts) = parts :=
      linesOf_endedLines fun p hp => h p (List.mem_append_left _ hp)
    by_cases hne : parts = []
    · subst hne
      by_cases hempty : part = []
      · simp [hempty]
      · simp [linesOf_line hpart hempty, hempty]
    · rw [intercalate_concat hne, linesOf_append, intercalate_append_sep hne, hends, List.getLast?_concat,
        List.dropLast_concat]
      by_cases hempty : part = []
      · simp [hempty]
      · simp [linesOf_line hpart hempty, hempty]

theorem flatMap_eq_iff {α β : Type} {f g : α → List β} {l : List α}
    (h : ∀ a ∈ l, (g a).length ≤ (f a).length) :
    l.flatMap f = l.flatMap g ↔ ∀ a ∈ l, f a = g a := by
  induction l with
  | nil => exact iff_of_true rfl fun _ hin => absurd hin List.not_mem_nil
  | cons a l ih =>
    obtain ⟨ha, hl⟩ := List.forall_mem_cons.mp h
    rw [List.forall_mem_cons, ← ih hl, List.flatMap_cons, List.flatMap_cons]
    constructor
    · intro heq
      have hrest : (l.flatMap g).length ≤ (l.flatMap f).length := by
        rw [List.length_flatMap, List.length_flatMap]
        exact List.sum_le_sum hl
      have hlength := congrArg List.length heq
      rw [List.length_append, List.length_append] at hlength
      exact List.append_inj heq (by omega)
    · rintro ⟨hfirst, hothers⟩
      rw [hfirst, hothers]

end Joined

section Segments

variable {sep : UInt8} {text segment : Bytes}

theorem not_mem_of_mem_splitOn (h : segment ∈ text.splitOn sep) : sep ∉ segment := by
  induction text generalizing segment with
  | nil => simp_all
  | cons c text ih =>
    rw [List.splitOn_cons_eq_if_modifyHead] at h
    split at h
    · rcases List.mem_cons.mp h with rfl | h
      · exact List.not_mem_nil
      · exact ih h
    · rename_i hc
      obtain ⟨first, others, hsplit⟩ := List.exists_cons_of_ne_nil (List.splitOn_ne_nil sep text)
      rw [hsplit, List.modifyHead_cons] at h
      rw [hsplit] at ih
      rcases List.mem_cons.mp h with rfl | h
      · refine List.not_mem_cons_of_ne_of_not_mem (fun heq => hc (by simp [heq])) ?_
        exact ih List.mem_cons_self
      · exact ih (List.mem_cons_of_mem first h)

theorem modifyHead_nil_append (segments : List Bytes) :
    segments.modifyHead ([] ++ ·) = segments := by
  cases segments <;> rfl

theorem modifyHead_concat (segments : List Bytes) (front : Bytes) (c : UInt8) :
    (segments.modifyHead (c :: ·)).modifyHead (front ++ ·) =
      segments.modifyHead (front ++ [c] ++ ·) := by
  cases segments <;> simp

theorem linesOf_eq_splitOn (sep : UInt8) (text : Bytes) : linesOf sep text =
    if (text.splitOn sep).getLast? = some [] then (text.splitOn sep).dropLast
    else text.splitOn sep := by
  rw [← linesOf_intercalate fun _ => not_mem_of_mem_splitOn, List.intercalate_splitOn]

end Segments

end ZoraVM.Foundation
