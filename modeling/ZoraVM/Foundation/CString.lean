import Mathlib.Tactic

namespace ZoraVM.Foundation

-- A C string is the list of its bytes, terminator left out.
abbrev Bytes := List UInt8

def str (s : String) : Bytes := s.toList.map (fun c => c.toNat.toUInt8)

-- What fits a buffer of `n` bytes with the terminator strncpy or snprintf leaves.
def clip (n : Nat) (s : Bytes) : Bytes := s.take (n - 1)

theorem length_clip_le (n : Nat) (s : Bytes) : (clip n s).length ≤ n - 1 := by simp [clip]

theorem clip_of_length_lt {n : Nat} {s : Bytes} (h : s.length < n) : clip n s = s :=
  List.take_of_length_le (by omega)

theorem clip_clip (n : Nat) (s : Bytes) : clip n (clip n s) = clip n s := by
  simp [clip, List.take_take]

section Separated

variable {α : Type} [DecidableEq α] {c : α}

def splitLast (c : α) : List α → Option (List α × List α)
  | [] => none
  | x :: xs =>
    match splitLast c xs with
    | some (a, b) => some (x :: a, b)
    | none => if x = c then some ([], xs) else none

theorem splitLast_eq_none {s : List α} : splitLast c s = none ↔ c ∉ s := by
  induction s with
  | nil => simp [splitLast]
  | cons x xs ih =>
    cases hx : splitLast c xs with
    | some ab =>
      have hmem : c ∈ xs := by
        by_contra hn
        simp [ih.mpr hn] at hx
      simp [splitLast, hx, hmem]
    | none =>
      have hmem : c ∉ xs := ih.mp hx
      by_cases hc : x = c
      · simp [splitLast, hx, hc]
      · simp [splitLast, hx, hc, hmem, Ne.symm hc]

theorem splitLast_append {a b : List α} (hb : c ∉ b) : splitLast c (a ++ c :: b) = some (a, b) := by
  induction a with
  | nil => rw [List.nil_append, splitLast, splitLast_eq_none.mpr hb, if_pos rfl]
  | cons x a ih => rw [List.cons_append, splitLast, ih]

theorem splitLast_some {s a b : List α} (h : splitLast c s = some (a, b)) :
    s = a ++ c :: b ∧ c ∉ b := by
  induction s generalizing a with
  | nil => cases h
  | cons x xs ih =>
    cases hx : splitLast c xs with
    | some ab =>
      rw [splitLast, hx] at h
      obtain ⟨rfl, rfl⟩ := Prod.mk.inj (Option.some.inj h)
      obtain ⟨hxs, hb⟩ := ih hx
      exact ⟨by rw [hxs, List.cons_append], hb⟩
    | none =>
      simp only [splitLast, hx, Option.ite_none_right_eq_some, Option.some.injEq,
        Prod.mk.injEq] at h
      obtain ⟨rfl, rfl, rfl⟩ := h
      exact ⟨rfl, splitLast_eq_none.mp hx⟩

theorem splitLast_eq_some {s a b : List α} :
    splitLast c s = some (a, b) ↔ s = a ++ c :: b ∧ c ∉ b := by
  refine ⟨splitLast_some, ?_⟩
  rintro ⟨rfl, hb⟩
  exact splitLast_append hb

def tokens (c : α) (s : List α) : List (List α) := (s.splitOn c).filter (fun w => !w.isEmpty)

@[simp] theorem tokens_nil : tokens c ([] : List α) = [] := by simp [tokens]

theorem tokens_append_cons (a b : List α) : tokens c (a ++ c :: b) = tokens c a ++ tokens c b := by
  simp [tokens, List.splitOn_append_cons_self]

@[simp] theorem tokens_cons_self (s : List α) : tokens c (c :: s) = tokens c s := by
  simpa using tokens_append_cons (c := c) [] s

theorem tokens_of_not_mem {s : List α} (hs : c ∉ s) (hne : s ≠ []) : tokens c s = [s] := by
  simp [tokens, List.splitOn_eq_singleton hs, hne]

theorem eq_or_split (c : α) (s : List α) : c ∉ s ∨ ∃ a b, s = a ++ c :: b ∧ c ∉ b := by
  cases h : splitLast c s with
  | none => exact .inl (splitLast_eq_none.mp h)
  | some ab => exact .inr ⟨ab.1, ab.2, splitLast_eq_some.mp h⟩

theorem mem_tokens {s w : List α} (h : w ∈ tokens c s) : c ∉ w ∧ w ≠ [] := by
  rcases eq_or_split c s with hs | ⟨a, b, rfl, hb⟩
  · by_cases hne : s = []
    · simp [hne] at h
    · rw [tokens_of_not_mem hs hne] at h
      obtain rfl := List.mem_singleton.mp h
      exact ⟨hs, hne⟩
  · rw [tokens_append_cons] at h
    rcases List.mem_append.mp h with h | h
    · exact mem_tokens h
    · by_cases hne : b = []
      · simp [hne] at h
      · rw [tokens_of_not_mem hb hne] at h
        obtain rfl := List.mem_singleton.mp h
        exact ⟨hb, hne⟩
termination_by s.length
decreasing_by all_goals (subst_vars; simp)

theorem sum_length_tokens (s : List α) :
    ((tokens c s).map (fun w => w.length + 1)).sum ≤ s.length + 1 := by
  rcases eq_or_split c s with hs | ⟨a, b, rfl, hb⟩
  · by_cases hne : s = []
    · simp [hne]
    · simp [tokens_of_not_mem hs hne]
  · have ha := sum_length_tokens a
    have hb' : ((tokens c b).map (fun w => w.length + 1)).sum ≤ b.length + 1 := by
      by_cases hne : b = []
      · simp [hne]
      · simp [tokens_of_not_mem hb hne]
    simp only [tokens_append_cons, List.map_append, List.sum_append, List.length_append,
      List.length_cons]
    omega
termination_by s.length
decreasing_by all_goals (subst_vars; simp)

theorem flatten_tokens (s : List α) : (tokens c s).flatten = s.filter (· ≠ c) := by
  have hplain : ∀ w : List α, c ∉ w → w.filter (· ≠ c) = w := by
    intro w hw
    exact List.filter_eq_self.mpr fun x hx => by simpa using ne_of_mem_of_not_mem hx hw
  have hword : ∀ w : List α, c ∉ w → (tokens c w).flatten = w.filter (· ≠ c) := by
    intro w hw
    by_cases hne : w = []
    · simp [hne]
    · rw [tokens_of_not_mem hw hne, hplain w hw, List.flatten_singleton]
  rcases eq_or_split c s with hs | ⟨a, b, rfl, hb⟩
  · exact hword s hs
  · rw [tokens_append_cons, List.flatten_append, flatten_tokens a, hword b hb]
    simp
termination_by s.length
decreasing_by all_goals (subst_vars; simp)

theorem tokens_take_append (a b : List α) (n : Nat) :
    tokens c ((a ++ c :: b).take n) =
      tokens c (a.take n) ++ tokens c (b.take (n - (a.length + 1))) := by
  rw [List.take_append]
  by_cases hn : n ≤ a.length
  · have hb : n - (a.length + 1) = 0 := by omega
    simp [Nat.sub_eq_zero_of_le hn, hb]
  · obtain ⟨m, hm⟩ : ∃ m, n - a.length = m + 1 := ⟨n - a.length - 1, by omega⟩
    have hb : n - (a.length + 1) = m := by omega
    rw [hm, hb, List.take_succ_cons, tokens_append_cons]

theorem tokens_take_eq_iff {s : List α} (hlast : ∃ x, s.getLast? = some x ∧ x ≠ c) (n : Nat) :
    tokens c (s.take n) = tokens c s ↔ s.length ≤ n := by
  constructor
  · intro h
    obtain ⟨x, hx, hxc⟩ := hlast
    by_contra hn
    have hfilter : (s.take n).filter (· ≠ c) ++ (s.drop n).filter (· ≠ c) =
        (s.take n).filter (· ≠ c) := by
      rw [← List.filter_append, List.take_append_drop, ← flatten_tokens, ← flatten_tokens, h]
    have hempty : (s.drop n).filter (· ≠ c) = [] := List.append_right_eq_self.mp hfilter
    have hmem : x ∈ s.drop n := by
      apply List.mem_of_getLast?
      rw [List.getLast?_drop, if_neg hn, hx]
    exact List.filter_eq_nil_iff.mp hempty x hmem (by simpa using hxc)
  · intro hn
    rw [List.take_of_length_le hn]

theorem tokens_take_cases (s : List α) (n : Nat) :
    (∃ rest, tokens c s = tokens c (s.take n) ++ rest) ∨
      ∃ front shown name rest, shown ≠ name ∧ tokens c (s.take n) = front ++ [shown] ∧
        tokens c s = front ++ name :: rest := by
  obtain ⟨above, last, htake, hlast⟩ : ∃ above last, tokens c (s.take n) = above ++ tokens c last ∧
      c ∉ last ∧ ∀ behind, tokens c (s.take n ++ behind) = above ++ tokens c (last ++ behind) := by
    rcases eq_or_split c (s.take n) with hplain | ⟨a, b, hsplit, hb⟩
    · exact ⟨[], s.take n, rfl, hplain, fun _ => rfl⟩
    · refine ⟨tokens c a, b, ?_, hb, fun behind => ?_⟩
      · rw [hsplit, tokens_append_cons]
      · rw [hsplit, List.append_assoc, List.cons_append, tokens_append_cons]
  obtain ⟨hplain, hwhole⟩ := hlast
  have hs := hwhole (s.drop n)
  rw [List.take_append_drop] at hs
  by_cases hnil : last = []
  · refine .inl ⟨tokens c (s.drop n), ?_⟩
    rw [hs, htake, hnil, tokens_nil, List.append_nil, List.nil_append]
  rw [tokens_of_not_mem hplain hnil] at htake
  have hpart : ∀ part, c ∉ part → tokens c (last ++ part) = [last ++ part] := by
    intro part hpart
    exact tokens_of_not_mem (by simp [hplain, hpart]) (by simp [hnil])
  obtain ⟨part, later, hpieces, hmore⟩ : ∃ part later, c ∉ part ∧
      tokens c (last ++ s.drop n) = (last ++ part) :: later := by
    by_cases hmem : c ∈ s.drop n
    · obtain ⟨part, behind, hdrop, hpart'⟩ := List.eq_append_cons_of_mem hmem
      refine ⟨part, tokens c behind, hpart', ?_⟩
      rw [hdrop, ← List.append_assoc, tokens_append_cons, hpart part hpart']
      rfl
    · exact ⟨s.drop n, [], hmem, hpart _ hmem⟩
  rw [hmore] at hs
  by_cases hpart : part = []
  · refine .inl ⟨later, ?_⟩
    rw [hs, htake, hpart, List.append_nil, List.append_assoc]
    rfl
  · refine .inr ⟨above, last, last ++ part, later, ?_, htake, hs⟩
    exact fun heq => hpart (List.append_right_eq_self.mp heq.symm)

end Separated

end ZoraVM.Foundation
