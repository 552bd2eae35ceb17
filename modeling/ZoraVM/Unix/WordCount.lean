import ZoraVM.Foundation.CInt
import ZoraVM.Foundation.Words
import ZoraVM.Unix.TextProc

namespace ZoraVM.Unix

open Foundation Shell

section Source

structure WordCount where
  lines : Nat
  words : Nat
  chars : Nat
  deriving DecidableEq, Repr

structure CountState where
  count : WordCount
  inWord : Bool
  deriving DecidableEq, Repr

def CountState.next (st : CountState) (c : UInt8) : CountState :=
  { count :=
      { lines := if c = newline then st.count.lines + 1 else st.count.lines
        words := if isSpace c then st.count.words
          else if st.inWord then st.count.words else st.count.words + 1
        chars := st.count.chars + 1 }
    inWord := !isSpace c }

-- The counters are ints.
def countNext (st : CountState) (c : UInt8) : Checked CountState := do
  let _ ← checkedNat (st.next c).count.chars
  let _ ← checkedNat (st.next c).count.lines
  let _ ← checkedNat (st.next c).count.words
  .ok (st.next c)

def countFrom (st : CountState) : Bytes → Checked WordCount
  | [] => .error (.fault .bufferOverflow)
  | c :: p =>
    if c = 0 then .ok st.count
    else do
      let st ← countNext st c
      countFrom st p

def unixWordCount (input : Bytes) : Checked WordCount := countFrom ⟨⟨0, 0, 0⟩, false⟩ input

end Source

section Counting

variable {s t tail : Bytes} {c : UInt8} {st : CountState}

-- "\t\n\v\f\r "
def whitespace : Bytes := [9, 10, 11, 12, 13, 32]

def WordCount.add (a b : WordCount) : WordCount :=
  ⟨a.lines + b.lines, a.words + b.words, a.chars + b.chars⟩

def countOf (s : Bytes) : WordCount := ⟨s.count newline, (words whitespace s).length, s.length⟩

def MeetAtSpace (s t : Bytes) : Prop :=
  (∃ c ∈ s.getLast?, c ∈ whitespace) ∨ ∃ c ∈ t.head?, c ∈ whitespace

theorem isSpace_iff : isSpace c = true ↔ c ∈ whitespace := by
  have hbytes : ∀ c : Fin 256, isSpace (UInt8.ofFin c) = true ↔ UInt8.ofFin c ∈ whitespace := by
    decide +kernel
  exact hbytes c.toFin

structure Counted (s : Bytes) (st : CountState) : Prop where
  count : st.count = countOf s
  inWord : st.inWord = true ↔ EndsInWord whitespace s

theorem Counted.next (h : Counted s st) (c : UInt8) : Counted (s ++ [c]) (st.next c) := by
  have hin := h.inWord
  have hlines : (s ++ [c]).count newline =
      if c = newline then s.count newline + 1 else s.count newline := by
    rw [List.count_append, List.count_singleton]
    by_cases hc : c = newline <;> simp [hc]
  constructor
  · rw [CountState.next, h.count, countOf, countOf, WordCount.mk.injEq]
    refine ⟨hlines.symm, ?_, by simp⟩
    by_cases hc : isSpace c = true
    · rw [if_pos hc, words_append_cons (isSpace_iff.mp hc), words_nil, List.append_nil]
    · have hout : c ∉ whitespace := fun hmem => hc (isSpace_iff.mpr hmem)
      have hwords := length_words_concat hout s
      rw [if_neg hc]
      split
      · next hword => exact (hwords.1 (hin.mp hword)).symm
      · next hword => exact (hwords.2 fun h => hword (hin.mpr h)).symm
  · rw [CountState.next]
    by_cases hc : isSpace c = true
    · have hnone := endsInWord_append_cons (isSpace_iff.mp hc) s []
      rw [hnone]
      simp [hc, EndsInWord]
    · have hout : c ∉ whitespace := fun hmem => hc (isSpace_iff.mpr hmem)
      refine iff_of_true (by simp [hc]) (endsInWord_append_word (List.cons_ne_nil c []) ?_ s)
      simpa using hout

theorem counted (s : Bytes) : Counted s (s.foldl CountState.next ⟨⟨0, 0, 0⟩, false⟩) := by
  induction s using List.reverseRecOn with
  | nil => exact ⟨rfl, by simp [EndsInWord]⟩
  | append_singleton s c ih =>
    rw [List.foldl_append]
    exact ih.next c

theorem length_words_le (delims text : Bytes) : (words delims text).length ≤ text.length := by
  induction text using List.reverseRecOn with
  | nil => exact Nat.le_refl 0
  | append_singleton text c ih =>
    rw [List.length_append, List.length_singleton]
    by_cases hc : c ∈ delims
    · rw [words_append_cons hc, words_nil, List.append_nil]
      omega
    · have hstep := length_words_concat hc text
      by_cases hin : EndsInWord delims text
      · rw [hstep.1 hin]
        omega
      · rw [hstep.2 hin]
        omega

theorem Counted.le (h : Counted s st) : st.count.chars = s.length ∧ st.count.lines ≤ s.length ∧
    st.count.words ≤ s.length := by
  rw [h.count]
  exact ⟨rfl, List.count_le_length, length_words_le whitespace s⟩

-- No counter is ahead of the one of the characters, so that this one is full first.
theorem Counted.countNext_eq (h : Counted s st) (c : UInt8) : countNext st c =
    if s.length + 1 ≤ 2147483647 then .ok (st.next c) else .error .intOverflow := by
  obtain ⟨hchars, hlines, hwords⟩ := (h.next c).le
  rw [List.length_append, List.length_singleton] at hchars hlines hwords
  rw [countNext, hchars]
  split
  · next hroom =>
    rw [checkedNat_ok hroom, checkedNat_ok (hlines.trans hroom), checkedNat_ok (hwords.trans hroom)]
    rfl
  · next hfull =>
    rw [checkedNat_overflow (by omega)]
    rfl

theorem countFrom_ended {front : Bytes} (hfront : Counted front st) (hs : 0 ∉ s) :
    countFrom st (s ++ 0 :: tail) = if s = [] ∨ front.length + s.length ≤ 2147483647 then
      .ok (s.foldl CountState.next st).count else .error .intOverflow := by
  induction s generalizing front st with
  | nil => exact if_pos rfl
  | cons c s ih =>
    rw [List.mem_cons, not_or] at hs
    rw [List.cons_append, countFrom, if_neg (Ne.symm hs.1), hfront.countNext_eq c, List.length_cons]
    by_cases hroom : front.length + 1 ≤ 2147483647
    · rw [if_pos hroom]
      refine (ih (hfront.next c) hs.2).trans ?_
      rw [List.length_append, List.length_singleton, List.foldl_cons]
      by_cases hnil : s = []
      · subst hnil
        rw [if_pos (.inl rfl), if_pos (.inr hroom)]
      · simp only [hnil, false_or, List.cons_ne_nil, Nat.add_assoc, Nat.add_comm 1]
    · rw [if_neg hroom, if_neg (by simp; omega)]
      rfl

theorem unixWordCount_eq (hs : 0 ∉ s) (tail : Bytes) : unixWordCount (s ++ 0 :: tail) =
    if s.length ≤ 2147483647 then .ok (countOf s) else .error .intOverflow := by
  have hempty : Counted [] ⟨⟨0, 0, 0⟩, false⟩ := counted []
  have hcount := @countFrom_ended s tail _ _ hempty hs
  rw [(counted s).count, List.length_nil, Nat.zero_add] at hcount
  refine hcount.trans ?_
  by_cases hnil : s = []
  · subst hnil
    rfl
  · simp only [hnil, false_or]

theorem unixWordCount_ok_iff (hs : 0 ∉ s) (tail : Bytes) {count : WordCount} :
    unixWordCount (s ++ 0 :: tail) = .ok count ↔ s.length ≤ 2147483647 ∧ countOf s = count := by
  rw [unixWordCount_eq hs]
  split
  · next h => simp [h]
  · next h => simp [h]

theorem countOf_append (h : MeetAtSpace s t) : countOf (s ++ t) = (countOf s).add (countOf t) := by
  rw [countOf, countOf, countOf, WordCount.add, words_append_of_junction h, List.count_append,
    List.length_append, List.length_append]

theorem words_counted_iff (s t tail : Bytes) (hs : 0 ∉ s) (ht : 0 ∉ t) :
    (unixWordCount (s ++ 0 :: tail) = .ok (countOf s) ∧
        (MeetAtSpace s t →
          unixWordCount (s ++ t ++ 0 :: tail) = .ok ((countOf s).add (countOf t)))) ↔
      s.length ≤ 2147483647 ∧ (MeetAtSpace s t → s.length + t.length ≤ 2147483647) := by
  have hplain : 0 ∉ s ++ t := by simp [hs, ht]
  rw [unixWordCount_ok_iff hs, unixWordCount_ok_iff hplain, List.length_append]
  refine and_congr (and_iff_left rfl) (forall_congr' fun hmeet => ?_)
  rw [countOf_append hmeet]
  exact and_iff_left rfl

theorem two_lines_counted :
    (unixWordCount (str "one two" ++ 0 :: []) = .ok (countOf (str "one two")) ∧
        (MeetAtSpace (str "one two") (str "\nthree") →
          unixWordCount (str "one two" ++ str "\nthree" ++ 0 :: []) =
            .ok ((countOf (str "one two")).add (countOf (str "\nthree"))))) ↔
      (str "one two").length ≤ 2147483647 ∧ (MeetAtSpace (str "one two") (str "\nthree") →
        (str "one two").length + (str "\nthree").length ≤ 2147483647) :=
  words_counted_iff (str "one two") (str "\nthree") [] (by decide) (by decide)

theorem chars_overflow : ¬ ∀ s tail : Bytes, 0 ∉ s → unixWordCount (s ++ 0 :: tail) = .ok (countOf s) := by
  intro hall
  have hplain : 0 ∉ List.replicate (2 ^ 31) (97 : UInt8) := fun hin =>
    absurd (List.eq_of_mem_replicate hin) (by decide)
  have hlong : ¬ (List.replicate (2 ^ 31) (97 : UInt8)).length ≤ 2147483647 := by
    rw [List.length_replicate]
    decide
  exact hlong ((unixWordCount_ok_iff hplain []).mp (hall _ [] hplain)).1

end Counting

end ZoraVM.Unix
