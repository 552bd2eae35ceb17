import ZoraVM.Foundation.Strtok
import Mathlib.Data.List.DropRight

namespace ZoraVM.Foundation

section Words

variable {delims : Bytes} {w rest skip text : Bytes} {d : UInt8}

def words (delims text : Bytes) : List Bytes :=
  (text.splitOnP fun c => decide (c ∈ delims)).filter fun w => !w.isEmpty

def EndsInWord (delims text : Bytes) : Prop := ∃ c, text.getLast? = some c ∧ c ∉ delims

@[simp] theorem words_nil (delims : Bytes) : words delims [] = [] := by
  simp [words, List.splitOnP_nil]

theorem words_append_cons (hd : d ∈ delims) (text rest : Bytes) :
    words delims (text ++ d :: rest) = words delims text ++ words delims rest := by
  rw [words, List.splitOnP_append_cons text rest (by simpa using hd), List.filter_append]
  rfl

theorem words_cons (hd : d ∈ delims) (rest : Bytes) : words delims (d :: rest) = words delims rest := by
  simpa using words_append_cons hd [] rest

theorem words_append_of_delims (hskip : ∀ c ∈ skip, c ∈ delims) (rest : Bytes) :
    words delims (skip ++ rest) = words delims rest := by
  induction skip with
  | nil => rfl
  | cons c skip ih =>
    rw [List.cons_append, words_cons (hskip c List.mem_cons_self)]
    exact ih fun c hc => hskip c (List.mem_cons_of_mem _ hc)

theorem words_of_word (hne : w ≠ []) (hw : ∀ c ∈ w, c ∉ delims) : words delims w = [w] := by
  rw [words, List.splitOnP_eq_singleton fun c hc => by simpa using hw c hc]
  simp [hne]

theorem endsInWord_append_word (hne : w ≠ []) (hw : ∀ c ∈ w, c ∉ delims) (text : Bytes) :
    EndsInWord delims (text ++ w) := by
  obtain ⟨c, hc⟩ := Option.isSome_iff_exists.mp (List.getLast?_isSome.mpr hne)
  exact ⟨c, by rw [List.getLast?_append, hc]; rfl, hw c (List.mem_of_getLast? hc)⟩

theorem endsInWord_append_cons (hd : d ∈ delims) (text rest : Bytes) :
    EndsInWord delims (text ++ d :: rest) ↔ EndsInWord delims rest := by
  cases rest with
  | nil => simp [EndsInWord, hd]
  | cons b rest => simp [EndsInWord, List.getLast?_append, List.getLast?_cons]

theorem delims_or_word (delims text : Bytes) :
    (∀ c ∈ text, c ∈ delims) ∨ ∃ skip w, (∀ c ∈ skip, c ∈ delims) ∧ w ≠ [] ∧ (∀ c ∈ w, c ∉ delims) ∧
      (text = skip ++ w ∨ ∃ d rest, d ∈ delims ∧ text = skip ++ w ++ d :: rest) := by
  have hskip : ∀ c ∈ text.takeWhile (· ∈ delims), c ∈ delims := fun c hc => by
    simpa using List.mem_takeWhile_imp hc
  cases hw : text.dropWhile (· ∈ delims) with
  | nil =>
    left
    have hall := List.takeWhile_append_dropWhile (p := (· ∈ delims)) (l := text)
    rw [hw, List.append_nil] at hall
    exact hall ▸ hskip
  | cons b tail =>
    right
    have hb : b ∉ delims := by
      have hhead := List.head?_dropWhile_not (· ∈ delims) text
      rw [hw] at hhead
      simpa using hhead
    have hword : ∀ c ∈ (b :: tail).takeWhile (· ∉ delims), c ∉ delims := fun c hc => by
      simpa using List.mem_takeWhile_imp hc
    refine ⟨_, _, hskip, ?_, hword, ?_⟩
    · simp [hb]
    · have hsplit := List.takeWhile_append_dropWhile (p := (· ∈ delims)) (l := text)
      have htail := List.takeWhile_append_dropWhile (p := (· ∉ delims)) (l := b :: tail)
      rw [hw, ← htail] at hsplit
      cases hrest : (b :: tail).dropWhile (· ∉ delims) with
      | nil =>
        rw [hrest, List.append_nil] at hsplit
        exact .inl hsplit.symm
      | cons d rest =>
        have hhead := List.head?_dropWhile_not (· ∉ delims) (b :: tail)
        rw [hrest] at hsplit hhead
        exact .inr ⟨d, rest, by simpa using hhead, by rw [List.append_assoc, hsplit]⟩

end Words

section Letters

variable {delims w text rest : Bytes} {d : UInt8}

theorem words_eq_nil_iff : words delims text = [] ↔ ∀ c ∈ text, c ∈ delims := by
  constructor
  · intro h
    rcases delims_or_word delims text with hall | ⟨skip, w, hskip, hne, hw, rfl | ⟨d, rest, hd, rfl⟩⟩
    · exact hall
    · simp [words_append_of_delims hskip, words_of_word hne hw] at h
    · simp [words_append_cons hd, words_append_of_delims hskip, words_of_word hne hw] at h
  · intro hall
    simpa using words_append_of_delims hall []

theorem mem_words {delims w : Bytes} {text : Bytes} (h : w ∈ words delims text) : ∀ c ∈ w, c ∈ text := by
  rcases delims_or_word delims text with hall | ⟨skip, v, hskip, hne, hv, htext | ⟨d, rest, hd, htext⟩⟩
  · rw [words_eq_nil_iff.mpr hall] at h
    cases h
  · subst htext
    rw [words_append_of_delims hskip, words_of_word hne hv, List.mem_singleton] at h
    subst h
    exact fun c hc => List.mem_append_right skip hc
  · rw [htext, words_append_cons hd, words_append_of_delims hskip, words_of_word hne hv,
      List.mem_append, List.mem_singleton] at h
    intro c hc
    rcases h with rfl | h
    · simp [htext, hc]
    · have hrest := mem_words h c hc
      simp [htext, hrest]
termination_by text.length
decreasing_by
  subst htext
  simp only [List.length_append, List.length_cons]
  omega

theorem head_words (hd : d ∉ delims) (rest : Bytes) :
    ∃ w others, words delims (d :: rest) = (d :: w) :: others := by
  rcases delims_or_word delims (d :: rest) with hall | ⟨skip, w, hskip, hne, hw, hsplit⟩
  · exact absurd (hall d List.mem_cons_self) hd
  · obtain rfl : skip = [] := by
      cases skip with
      | nil => rfl
      | cons c skip =>
        rcases hsplit with h | ⟨_, _, _, h⟩
        all_goals
          obtain ⟨rfl, _⟩ := List.cons_eq_cons.mp h
          exact absurd (hskip d List.mem_cons_self) hd
    obtain ⟨c, w, rfl⟩ := List.exists_cons_of_ne_nil hne
    rcases hsplit with h | ⟨b, more, hb, h⟩
    · obtain ⟨rfl, _⟩ := List.cons_eq_cons.mp h
      exact ⟨w, [], by rw [h, List.nil_append, words_of_word hne hw]⟩
    · obtain ⟨rfl, _⟩ := List.cons_eq_cons.mp h
      refine ⟨w, words delims more, ?_⟩
      rw [h, List.nil_append, words_append_cons hb, words_of_word hne hw]
      rfl

theorem word_or_behind (delims text : Bytes) : (∀ c ∈ text, c ∉ delims) ∨
    ∃ front d w, text = front ++ d :: w ∧ d ∈ delims ∧ ∀ c ∈ w, c ∉ delims := by
  induction text with
  | nil => exact .inl fun c hc => absurd hc List.not_mem_nil
  | cons b text ih =>
    rcases ih with hw | ⟨front, d, w, rfl, hd, hw⟩
    · by_cases hb : b ∈ delims
      · exact .inr ⟨[], b, text, rfl, hb, hw⟩
      · exact .inl (List.forall_mem_cons.mpr ⟨hb, hw⟩)
    · exact .inr ⟨b :: front, d, w, rfl, hd, hw⟩

theorem endsInWord_of_word (hne : w ≠ []) (hw : ∀ c ∈ w, c ∉ delims) : EndsInWord delims w := by
  simpa using endsInWord_append_word hne hw []

theorem length_words_concat {c : UInt8} (hc : c ∉ delims) (text : Bytes) :
    (EndsInWord delims text → (words delims (text ++ [c])).length = (words delims text).length) ∧
      (¬ EndsInWord delims text →
        (words delims (text ++ [c])).length = (words delims text).length + 1) := by
  have hword : ∀ w : Bytes, (∀ b ∈ w, b ∉ delims) → words delims (w ++ [c]) = [w ++ [c]] := by
    intro w hw
    refine words_of_word (by simp) fun b hb => ?_
    rcases List.mem_append.mp hb with hb | hb
    · exact hw b hb
    · rwa [List.mem_singleton.mp hb]
  have hlast : ∀ w : Bytes, (∀ b ∈ w, b ∉ delims) →
      (EndsInWord delims w → (words delims w).length = 1) ∧
        (¬ EndsInWord delims w → words delims w = []) := by
    intro w hw
    by_cases hne : w = []
    · exact ⟨fun h => absurd hne (by rintro rfl; obtain ⟨b, hb, -⟩ := h; cases hb), fun _ => by simp [hne]⟩
    · refine ⟨fun _ => by rw [words_of_word hne hw]; rfl, fun h => absurd ?_ h⟩
      exact endsInWord_of_word hne hw
  rcases word_or_behind delims text with hw | ⟨front, d, w, rfl, hd, hw⟩
  · rw [hword text hw]
    refine ⟨fun h => ((hlast text hw).1 h).symm, fun h => ?_⟩
    rw [(hlast text hw).2 h]
    rfl
  · rw [endsInWord_append_cons hd, List.append_assoc, List.cons_append, words_append_cons hd,
      words_append_cons hd, hword w hw, List.length_append, List.length_append]
    refine ⟨fun h => by rw [(hlast w hw).1 h]; rfl, fun h => by rw [(hlast w hw).2 h]; rfl⟩

theorem words_append_of_junction {text' : Bytes}
    (h : (∃ d ∈ text.getLast?, d ∈ delims) ∨ ∃ d ∈ text'.head?, d ∈ delims) :
    words delims (text ++ text') = words delims text ++ words delims text' := by
  rcases h with ⟨d, hlast, hd⟩ | ⟨d, hhead, hd⟩
  · obtain ⟨front, rfl⟩ := List.getLast?_eq_some_iff.mp hlast
    rw [List.append_assoc, List.singleton_append, words_append_cons hd, words_append_cons hd, words_nil,
      List.append_nil]
  · obtain ⟨behind, rfl⟩ := List.head?_eq_some_iff.mp hhead
    rw [words_append_cons hd, words_cons hd]

end Letters

section Trimming

variable {delims text : Bytes}

def trimLeft (delims text : Bytes) : Bytes := text.dropWhile (· ∈ delims)

-- while (end > text && (*end == ' ' || *end == '\t')) end--;
def trimRight (delims : Bytes) : Bytes → Bytes
  | [] => []
  | c :: rest => c :: rest.rdropWhile (· ∈ delims)

def trim (delims text : Bytes) : Bytes := trimRight delims (trimLeft delims text)

theorem words_trimLeft (delims text : Bytes) :
    words delims (trimLeft delims text) = words delims text := by
  have hskip : ∀ c ∈ text.takeWhile (· ∈ delims), c ∈ delims := fun c hc => by
    simpa using List.mem_takeWhile_imp hc
  have h := words_append_of_delims hskip (text.dropWhile (· ∈ delims))
  rw [List.takeWhile_append_dropWhile] at h
  exact h.symm

theorem trimRight_append (delims text : Bytes) :
    ∃ skip, (∀ c ∈ skip, c ∈ delims) ∧ text = trimRight delims text ++ skip := by
  cases text with
  | nil => exact ⟨[], by simp, rfl⟩
  | cons c rest =>
    refine ⟨rest.rtakeWhile (· ∈ delims), fun b hb => ?_, ?_⟩
    · simpa using List.mem_rtakeWhile_imp hb
    · rw [trimRight, List.cons_append, List.rdropWhile_append_rtakeWhile]

theorem words_trimRight (delims text : Bytes) :
    words delims (trimRight delims text) = words delims text := by
  obtain ⟨skip, hskip, htext⟩ := trimRight_append delims text
  generalize trimRight delims text = kept at htext
  subst htext
  cases skip with
  | nil => rw [List.append_nil]
  | cons c skip =>
    have hnone : words delims skip = [] :=
      words_eq_nil_iff.mpr fun b hb => hskip b (List.mem_cons_of_mem c hb)
    rw [words_append_cons (hskip c List.mem_cons_self), hnone, List.append_nil]

theorem words_trim (delims text : Bytes) : words delims (trim delims text) = words delims text := by
  rw [trim, words_trimRight, words_trimLeft]

theorem trimLeft_of_word {c : UInt8} (hc : c ∉ delims) (rest : Bytes) :
    trimLeft delims (c :: rest) = c :: rest := by
  simp [trimLeft, hc]

theorem exists_word (h : words delims text ≠ []) :
    ∃ skip c rest, (∀ b ∈ skip, b ∈ delims) ∧ c ∉ delims ∧ text = skip ++ c :: rest := by
  rcases delims_or_word delims text with hall | ⟨skip, w, hskip, hne, hw, hsplit⟩
  · exact absurd (words_eq_nil_iff.mpr hall) h
  · obtain ⟨c, w, rfl⟩ := List.exists_cons_of_ne_nil hne
    rcases hsplit with htext | ⟨d, rest, _, htext⟩
    · exact ⟨skip, c, w, hskip, hw c List.mem_cons_self, htext⟩
    · exact ⟨skip, c, w ++ d :: rest, hskip, hw c List.mem_cons_self, by simpa using htext⟩

theorem trimLeft_append {skip : Bytes} {c : UInt8} (hskip : ∀ b ∈ skip, b ∈ delims) (hc : c ∉ delims)
    (rest : Bytes) : trimLeft delims (skip ++ c :: rest) = c :: rest := by
  rw [trimLeft, List.dropWhile_append_of_pos (by simpa using hskip)]
  exact trimLeft_of_word hc rest

theorem rdropWhile_append_word {c : UInt8} (hc : c ∉ delims) (front rest : Bytes) :
    (front ++ c :: rest).rdropWhile (· ∈ delims) = front ++ c :: rest.rdropWhile (· ∈ delims) := by
  induction rest using List.reverseRecOn with
  | nil => exact List.rdropWhile_concat_neg _ _ _ (by simpa using hc)
  | append_singleton rest b ih =>
    have hsplit : front ++ c :: (rest ++ [b]) = (front ++ c :: rest) ++ [b] := by simp
    by_cases hb : b ∈ delims
    · rw [hsplit, List.rdropWhile_concat_pos _ _ _ (by simpa using hb), ih,
        List.rdropWhile_concat_pos _ _ _ (by simpa using hb)]
    · rw [hsplit, List.rdropWhile_concat_neg _ _ _ (by simpa using hb),
        List.rdropWhile_concat_neg _ _ _ (by simpa using hb), ← hsplit]

theorem endsInWord_trimLeft (h : words delims text ≠ []) :
    EndsInWord delims (trimLeft delims text) ↔ EndsInWord delims text := by
  obtain ⟨skip, c, rest, hskip, hc, rfl⟩ := exists_word h
  rw [trimLeft_append hskip hc]
  simp [EndsInWord, List.getLast?_append, List.getLast?_cons]

theorem mem_trimLeft {c : UInt8} (h : c ∈ trimLeft delims text) : c ∈ text :=
  (List.dropWhile_sublist _).subset h

theorem mem_trim {c : UInt8} (h : c ∈ trim delims text) : c ∈ text := by
  obtain ⟨skip, _, htext⟩ := trimRight_append delims (trimLeft delims text)
  exact mem_trimLeft (htext ▸ List.mem_append_left skip h)

theorem trim_append {last : Bytes} (hfirst : words delims text ≠ []) (hlast : words delims last ≠ [])
    (middle : Bytes) : ∃ kept skip, last = kept ++ skip ∧ (∀ b ∈ skip, b ∈ delims) ∧
      trimLeft delims kept = trim delims last ∧
      trim delims (text ++ (middle ++ last)) = trimLeft delims text ++ (middle ++ kept) := by
  obtain ⟨skip, c, rest, hskip, hc, rfl⟩ := exists_word hfirst
  obtain ⟨skip', c', rest', hskip', hc', rfl⟩ := exists_word hlast
  refine ⟨skip' ++ c' :: rest'.rdropWhile (· ∈ delims), rest'.rtakeWhile (· ∈ delims), ?_, ?_, ?_, ?_⟩
  · rw [List.append_assoc, List.cons_append, List.rdropWhile_append_rtakeWhile]
  · exact fun b hb => by simpa using List.mem_rtakeWhile_imp hb
  · rw [trim, trimLeft_append hskip' hc', trimLeft_append hskip' hc', trimRight]
  · have hwhole : skip ++ c :: rest ++ (middle ++ (skip' ++ c' :: rest')) =
        skip ++ c :: (rest ++ middle ++ skip' ++ c' :: rest') := by simp
    rw [hwhole, trim, trimLeft_append hskip hc, trimLeft_append hskip hc, trimRight,
      rdropWhile_append_word hc']
    simp

theorem trim_ne_nil (h : words delims text ≠ []) : trim delims text ≠ [] := by
  intro hnil
  rw [← words_trim, hnil] at h
  exact h (words_nil delims)

end Trimming

section Joining

variable {c sep : UInt8} {part : Bytes} {parts : List Bytes}

theorem mem_joined (h : c ∈ [sep].intercalate parts) : c = sep ∨ ∃ part ∈ parts, c ∈ part := by
  induction parts with
  | nil => cases h
  | cons part parts ih =>
    cases parts with
    | nil =>
      rw [List.intercalate_singleton] at h
      exact .inr ⟨part, List.mem_cons_self, h⟩
    | cons next parts =>
      rw [List.intercalate_cons_cons, List.append_assoc, List.mem_append] at h
      rcases h with hpart | hrest
      · exact .inr ⟨part, List.mem_cons_self, hpart⟩
      · rcases List.mem_cons.mp hrest with hsep | hrest
        · exact .inl hsep
        · rcases ih hrest with hsep | ⟨found, hfound, hin⟩
          · exact .inl hsep
          · exact .inr ⟨found, List.mem_cons_of_mem part hfound, hin⟩

theorem joined_cons (sep : UInt8) (part : Bytes) (parts : List Bytes) :
    ∃ behind, [sep].intercalate (part :: parts) = part ++ behind ∧
      (behind = [] ∨ ∃ more, behind = sep :: more) := by
  cases parts with
  | nil => exact ⟨[], by rw [List.intercalate_singleton, List.append_nil], .inl rfl⟩
  | cons next parts =>
    refine ⟨sep :: [sep].intercalate (next :: parts), ?_, .inr ⟨_, rfl⟩⟩
    rw [List.intercalate_cons_cons, List.append_assoc]
    rfl

end Joining

section Breaking

variable {c : UInt8} {needle text : Bytes}

-- strstr: what stands before the first `needle`, and what behind it.
def breakAt (needle : Bytes) : Bytes → Option (Bytes × Bytes)
  | [] => if needle = [] then some ([], []) else none
  | c :: rest =>
    if needle.isPrefixOf (c :: rest) then some ([], (c :: rest).drop needle.length)
    else (breakAt needle rest).map fun p => (c :: p.1, p.2)

theorem breakAt_of_not_mem (h : c ∉ text) : breakAt (c :: needle) text = none := by
  induction text with
  | nil => rfl
  | cons b text ih =>
    have hb : c ≠ b := List.ne_of_not_mem_cons h
    have hnot : (c :: needle).isPrefixOf (b :: text) = false := by
      simp [List.isPrefixOf, hb]
    rw [breakAt, hnot, ih (List.not_mem_of_not_mem_cons h)]
    rfl

theorem breakAt_append (h : c ∉ text) (rest : Bytes) :
    breakAt (c :: needle) (text ++ (c :: needle ++ rest)) = some (text, rest) := by
  induction text with
  | nil =>
    have hbegins : (c :: needle).isPrefixOf (c :: needle ++ rest) = true :=
      List.isPrefixOf_iff_prefix.mpr (List.prefix_append _ _)
    have hdrop : (c :: needle ++ rest).drop (c :: needle).length = rest := List.drop_left
    rw [List.nil_append]
    rw [List.cons_append] at hbegins hdrop ⊢
    rw [breakAt, hbegins, if_pos rfl, hdrop]
  | cons b text ih =>
    have hb : c ≠ b := List.ne_of_not_mem_cons h
    have hnot : (c :: needle).isPrefixOf (b :: (text ++ (c :: needle ++ rest))) = false := by
      simp [List.isPrefixOf, hb]
    rw [List.cons_append, breakAt, hnot, ih (List.not_mem_of_not_mem_cons h)]
    rfl

theorem breakAt_some {before behind : Bytes} (h : breakAt needle text = some (before, behind)) :
    text = before ++ (needle ++ behind) := by
  induction text generalizing before with
  | nil =>
    rw [breakAt] at h
    split at h
    · next hneedle =>
      obtain ⟨rfl, rfl⟩ := Prod.mk.inj (Option.some.inj h)
      rw [hneedle]
      rfl
    · cases h
  | cons b text ih =>
    rw [breakAt] at h
    split at h
    · next hbegins =>
      obtain ⟨rfl, rfl⟩ := Prod.mk.inj (Option.some.inj h)
      obtain ⟨rest, hrest⟩ := List.isPrefixOf_iff_prefix.mp hbegins
      rw [← hrest, List.drop_left]
      rfl
    · obtain ⟨⟨before', behind'⟩, hbreak, heq⟩ := Option.map_eq_some_iff.mp h
      obtain ⟨rfl, rfl⟩ := Prod.mk.inj heq
      rw [ih hbreak]
      rfl

theorem length_le_of_breakAt {front before behind : Bytes} (hfront : c ∉ front)
    (h : breakAt (c :: needle) (front ++ text) = some (before, behind)) :
    front.length ≤ before.length := by
  by_contra hlt
  have hsplit := breakAt_some h
  have hget : (front ++ text)[before.length]? = some c := by
    rw [hsplit, List.getElem?_append_right (Nat.le_refl _)]
    simp
  rw [List.getElem?_append_left (by omega)] at hget
  exact hfront (List.mem_of_getElem? hget)

theorem breakAt_byte {before behind : Bytes} (h : breakAt [c] text = some (before, behind)) :
    text = before ++ c :: behind ∧ c ∉ before := by
  by_cases hin : c ∈ text
  · obtain ⟨front, rest, rfl, hfront⟩ := List.eq_append_cons_of_mem hin
    have hfirst := @breakAt_append c [] front hfront rest
    obtain ⟨rfl, rfl⟩ := Prod.mk.inj (Option.some.inj (hfirst.symm.trans h))
    exact ⟨rfl, hfront⟩
  · rw [breakAt_of_not_mem hin] at h
    cases h

end Breaking

section Search

variable {delims text tail : Bytes} {t : Strtok} {i : Nat}

def Strtok.Ahead (t : Strtok) (text tail : Bytes) : Prop :=
  ∃ i, t.next = .position i ∧ t.text.drop i = text ++ 0 :: tail

theorem ahead_start (text tail : Bytes) : (strtokStart (text ++ 0 :: tail)).Ahead text tail :=
  ⟨0, rfl, rfl⟩

section Step

variable (hdelims : 0 ∉ delims) {skip w : Bytes} (hskip : ∀ c ∈ skip, c ∈ delims)

include hskip

theorem takeWhile_skip {b : UInt8} (hb : b ∉ delims) (rest : Bytes) :
    (skip ++ b :: rest).takeWhile (· ∈ delims) = skip := by
  rw [List.takeWhile_append_of_pos (by simpa using hskip)]
  simp [hb]

include hdelims

theorem strtok_skips (hnext : t.next = .position i) (hdrop : t.text.drop i = skip ++ 0 :: tail) :
    strtok delims t = .ok (none, { t with next := .position (i + skip.length) }) := by
  have hstart : t.text[i + skip.length]? = some 0 := by
    rw [← List.head?_drop, ← List.drop_drop, hdrop]
    simp
  simp only [strtok, hnext, hdrop, takeWhile_skip hskip hdelims, hstart]

omit hdelims

variable (hne : w ≠ []) (hw : ∀ c ∈ w, c ∉ delims ∧ c ≠ 0) {d : UInt8} {behind : Bytes}

include hne hw

theorem strtok_word (hd : d ∈ delims ∨ d = 0) (hnext : t.next = .position i)
    (hdrop : t.text.drop i = skip ++ (w ++ d :: behind)) :
    strtok delims t = .ok (some w, if d = 0 then { t with next := .usedUp } else
      ⟨t.text.set (i + skip.length + w.length) 0, .position (i + skip.length + w.length + 1)⟩) := by
  obtain ⟨b, more, rfl⟩ := List.exists_cons_of_ne_nil hne
  obtain ⟨hb, hzero⟩ := hw b List.mem_cons_self
  have hrest : t.text.drop (i + skip.length) = b :: more ++ d :: behind := by
    rw [← List.drop_drop, hdrop]
    simp
  have hstart : t.text[i + skip.length]? = some b := by
    rw [← List.head?_drop, hrest]
    rfl
  have hword : (b :: more ++ d :: behind).takeWhile (fun c => decide (c ∉ delims ∧ c ≠ 0)) =
      b :: more := by
    rw [List.takeWhile_append_of_pos (by simpa using hw)]
    rcases hd with hd | hd <;> simp [hd]
  have hstop : t.text[i + skip.length + (b :: more).length]? = some d := by
    rw [← List.head?_drop, ← List.drop_drop, hrest]
    simp
  rw [List.cons_append] at hdrop hrest hword
  simp only [strtok, hnext, hdrop, takeWhile_skip hskip hb, hrest, hword, hstart, hstop]
  by_cases hend : d = 0
  · subst hend
    split <;> simp_all
  · split <;> simp_all

end Step

theorem strtok_unended {skip w : Bytes} (hskip : ∀ c ∈ skip, c ∈ delims)
    (hw : ∀ c ∈ w, c ∉ delims ∧ c ≠ 0) (hnext : t.next = .position i)
    (hdrop : t.text.drop i = skip ++ w) : strtok delims t = .error .bufferOverflow := by
  have hrest : t.text.drop (i + skip.length) = w := by
    rw [← List.drop_drop, hdrop]
    simp
  have hend : ∀ k, w.length ≤ k → t.text[i + skip.length + k]? = none := by
    intro k hk
    rw [← List.getElem?_drop, hrest]
    exact List.getElem?_eq_none hk
  cases w with
  | nil =>
    have hall : skip.takeWhile (· ∈ delims) = skip :=
      List.takeWhile_eq_self_iff.mpr fun c hc => by simpa using hskip c hc
    have hstart := hend 0 (Nat.le_refl 0)
    rw [List.append_nil] at hdrop
    rw [Nat.add_zero] at hstart
    simp only [strtok, hnext, hdrop, hall, hstart]
  | cons b more =>
    obtain ⟨hb, hzero⟩ := hw b List.mem_cons_self
    have hstart : t.text[i + skip.length]? = some b := by
      rw [← List.head?_drop, hrest]
      rfl
    have hword : (b :: more).takeWhile (fun c => decide (c ∉ delims ∧ c ≠ 0)) = b :: more :=
      List.takeWhile_eq_self_iff.mpr fun c hc => by simpa using hw c hc
    have hstop := hend (b :: more).length (Nat.le_refl _)
    simp only [strtok, hnext, hdrop, takeWhile_skip hskip hb, hrest, hword, hstart, hstop]

theorem drop_behind {skip w behind : Bytes} {d : UInt8}
    (hdrop : t.text.drop i = skip ++ (w ++ d :: behind)) :
    (t.text.set (i + skip.length + w.length) 0).drop (i + skip.length + w.length + 1) = behind := by
  have hlt : i + skip.length + w.length < i + skip.length + w.length + 1 := Nat.lt_succ_self _
  rw [List.drop_set_of_lt hlt, ← List.drop_drop, ← List.drop_drop, ← List.drop_drop, hdrop]
  simp

theorem strtok_ahead (hdelims : 0 ∉ delims) (htext : 0 ∉ text) (h : t.Ahead text tail) :
    (words delims text = [] ∧ ¬ EndsInWord delims text ∧
      ∃ t', strtok delims t = .ok (none, t') ∧ t'.Ahead [] tail) ∨
    (∃ w, words delims text = [w] ∧ EndsInWord delims text ∧
      strtok delims t = .ok (some w, { t with next := .usedUp })) ∨
    ∃ w rest t', words delims text = w :: words delims rest ∧
      (EndsInWord delims text ↔ EndsInWord delims rest) ∧ rest.length < text.length ∧ 0 ∉ rest ∧
      strtok delims t = .ok (some w, t') ∧ t'.Ahead rest tail := by
  obtain ⟨i, hnext, hdrop⟩ := h
  rcases delims_or_word delims text with hall | ⟨skip, w, hskip, hne, hw, htext' | ⟨d, rest, hd, htext'⟩⟩
  · refine .inl ⟨?_, ?_, _, strtok_skips hdelims hall hnext hdrop, _, rfl, ?_⟩
    · simpa using words_append_of_delims hall []
    · rintro ⟨c, hc, hout⟩
      exact hout (hall c (List.mem_of_getLast? hc))
    · rw [← List.drop_drop, hdrop]
      simp
  · subst htext'
    have hplain : ∀ c ∈ w, c ∉ delims ∧ c ≠ 0 := fun c hc =>
      ⟨hw c hc, ne_of_mem_of_not_mem (List.mem_append_right skip hc) htext⟩
    rw [List.append_assoc] at hdrop
    refine .inr (.inl ⟨w, ?_, endsInWord_append_word hne hw skip, ?_⟩)
    · rw [words_append_of_delims hskip, words_of_word hne hw]
    · rw [strtok_word hskip hne hplain (.inr rfl) hnext hdrop, if_pos rfl]
  · subst htext'
    have hplain : ∀ c ∈ w, c ∉ delims ∧ c ≠ 0 := fun c hc =>
      ⟨hw c hc, ne_of_mem_of_not_mem (by simp [hc]) htext⟩
    have hdzero : d ≠ 0 := ne_of_mem_of_not_mem hd hdelims
    simp only [List.append_assoc, List.cons_append] at hdrop
    refine .inr (.inr ⟨w, rest, ⟨_, .position _⟩, ?_, endsInWord_append_cons hd _ rest, ?_, ?_, ?_,
      _, rfl, drop_behind hdrop⟩)
    · rw [words_append_cons hd, words_append_of_delims hskip, words_of_word hne hw]
      rfl
    · simp only [List.length_append, List.length_cons]
      omega
    · exact fun hin => htext (by simp [hin])
    · rw [strtok_word hskip hne hplain (.inl hd) hnext hdrop, if_neg hdzero]

theorem words_ne_nil_of_endsInWord (h : EndsInWord delims text) : words delims text ≠ [] := by
  obtain ⟨c, hc, hout⟩ := h
  rcases delims_or_word delims text with hall | ⟨skip, w, hskip, hne, hw, rfl | ⟨d, rest, hd, rfl⟩⟩
  · exact absurd (hall c (List.mem_of_getLast? hc)) hout
  · simp [words_append_of_delims hskip, words_of_word hne hw]
  · simp [words_append_cons hd, words_append_of_delims hskip, words_of_word hne hw]

end Search

section Collect

variable {delims text tail : Bytes} {t : Strtok}

-- while (token != NULL && argc < room) { args[argc++] = token; token = strtok(NULL, delims); }
def collectArgs (delims : Bytes) : Nat → Option Bytes → Strtok → Outcome (List Bytes × Strtok)
  | _, none, t => .ok ([], t)
  | 0, some _, t => .ok ([], t)
  | room + 1, some token, t => do
    let (next, t) ← strtok delims t
    let (args, t) ← collectArgs delims room next t
    .ok (token :: args, t)

def firstWords (delims : Bytes) (room : Nat) (text : Bytes) : Outcome (List Bytes × Strtok) := do
  let (token, t) ← strtok delims (strtokStart (text ++ [0]))
  collectArgs delims room token t

theorem collectArgs_ahead (hdelims : 0 ∉ delims) {room : Nat} (htext : 0 ∉ text)
    (h : t.Ahead text tail) :
    ∃ t', (strtok delims t >>= fun x => collectArgs delims room x.1 x.2) =
        .ok ((words delims text).take room, t') ∧
      (t'.next = .usedUp ↔ (words delims text).length ≤ room + 1 ∧ EndsInWord delims text) ∧
      t'.next ≠ .freed := by
  induction room generalizing text t with
  | zero =>
    rcases strtok_ahead hdelims htext h with ⟨hwords, hends, t', hcall, j, hj, _⟩ |
      ⟨w, hwords, hends, hcall⟩ | ⟨w, rest, t', hwords, hends, _, _, hcall, j, hj, _⟩
    · refine ⟨t', by rw [hcall, hwords]; rfl, ?_, ?_⟩
      · simp [hj, hends]
      · simp [hj]
    · refine ⟨{ t with next := .usedUp }, by rw [hcall, hwords]; rfl, ?_, ?_⟩
      · simp [hwords, hends]
      · simp
    · refine ⟨t', by rw [hcall]; rfl, ?_, ?_⟩
      · rw [hj, hwords, hends]
        refine iff_of_false (by simp) fun hboth => words_ne_nil_of_endsInWord hboth.2 ?_
        simpa using hboth.1
      · simp [hj]
  | succ room ih =>
    rcases strtok_ahead hdelims htext h with ⟨hwords, hends, t', hcall, j, hj, _⟩ |
      ⟨w, hwords, hends, hcall⟩ | ⟨w, rest, t', hwords, hends, _, hrest, hcall, hahead⟩
    · refine ⟨t', by rw [hcall, hwords]; rfl, ?_, ?_⟩
      · simp [hj, hends]
      · simp [hj]
    · refine ⟨{ t with next := .usedUp }, ?_, ?_, ?_⟩
      · rw [hcall, hwords]
        simp [collectArgs, bind, Except.bind, strtok]
      · simp [hwords, hends]
      · simp
    · obtain ⟨t'', hrun, hused, hfreed⟩ := ih hrest hahead
      have hstep : (strtok delims t >>= fun x => collectArgs delims (room + 1) x.1 x.2) =
          (strtok delims t' >>= fun x => collectArgs delims room x.1 x.2) >>= fun x =>
            .ok (w :: x.1, x.2) := by
        rw [hcall]
        simp only [bind, Except.bind, collectArgs]
        cases strtok delims t' with
        | error e => rfl
        | ok found => rfl
      refine ⟨t'', ?_, ?_, hfreed⟩
      · rw [hstep, hrun, hwords]
        rfl
      · rw [hused, hwords, hends, List.length_cons]
        exact and_congr_left' (by omega)

theorem firstWords_eq (hdelims : 0 ∉ delims) (room : Nat) (htext : 0 ∉ text) :
    ∃ t, firstWords delims room text = .ok ((words delims text).take room, t) ∧
      (t.next = .usedUp ↔ (words delims text).length ≤ room + 1 ∧ EndsInWord delims text) ∧
      t.next ≠ .freed :=
  collectArgs_ahead hdelims htext (ahead_start text [])

theorem tokenLoop_collects {room limit fuel : Nat} {st : List Bytes} {token : Option Bytes}
    (hroom : st.length + room = limit) (hfuel : room < fuel) :
    tokenLoop delims (fun st => decide (st.length < limit))
        (fun st token t => .ok (some (st ++ [token], t))) fuel token st t =
      (fun p => some (st ++ p.1, p.2)) <$> collectArgs delims room token t := by
  induction room generalizing st fuel token t with
  | zero =>
    have hstop : ¬ st.length < limit := by omega
    obtain ⟨fuel, rfl⟩ := Nat.exists_eq_add_of_lt hfuel
    cases token <;> simp [tokenLoop, collectArgs, hstop, Functor.map, Except.map]
  | succ room ih =>
    obtain ⟨fuel, rfl⟩ : ∃ k, fuel = k + 1 := ⟨fuel - 1, by omega⟩
    cases token with
    | none => simp [tokenLoop, collectArgs, Functor.map, Except.map]
    | some token =>
      have hmore : st.length < limit := by omega
      have hlen : (st ++ [token]).length + room = limit := by
        rw [List.length_append, List.length_singleton]
        omega
      have hfuel' : room < fuel := by omega
      simp only [tokenLoop, collectArgs, hmore, decide_true, if_true, bind, Except.bind]
      cases strtok delims t with
      | error e => rfl
      | ok found =>
        simp only [ih hlen hfuel']
        cases collectArgs delims room found.1 found.2 with
        | error e => rfl
        | ok rest => simp [Functor.map, Except.map]

end Collect

end ZoraVM.Foundation
