import Mathlib.Tactic

namespace ZoraVM.Foundation

section SlotTable

variable {α : Type} {l pre post : List (Option α)} {a b : α} {i : Nat} {f : Option α → Bool}

def entries (l : List (Option α)) : List α := l.filterMap id

theorem mem_entries : a ∈ entries l ↔ some a ∈ l := by simp [entries]

theorem entries_filled (pre post : List (Option α)) (a : α) :
    entries (pre ++ some a :: post) = entries pre ++ a :: entries post := by simp [entries]

theorem entries_empty (pre post : List (Option α)) :
    entries (pre ++ none :: post) = entries pre ++ entries post := by simp [entries]

theorem entries_replicate_none (n : Nat) : entries (List.replicate n (none : Option α)) = [] := by
  induction n with
  | zero => rfl
  | succ n ih => exact ih

theorem length_entries (l : List (Option α)) : (entries l).length = l.countP Option.isSome := by
  induction l with
  | nil => rfl
  | cons o l ih =>
    cases o with
    | none => exact ih
    | some a =>
      rw [List.countP_cons_of_pos rfl, ← ih]
      rfl

theorem length_entries_le : (entries l).length ≤ l.length := List.length_filterMap_le _ _

theorem length_entries_lt (h : none ∈ l) : (entries l).length < l.length := by
  obtain ⟨pre, post, rfl⟩ := List.append_of_mem h
  have hpre := length_entries_le (l := pre)
  have hpost := length_entries_le (l := post)
  rw [entries_empty, List.length_append, List.length_append, List.length_cons]
  omega

theorem length_entries_full (h : none ∉ l) : (entries l).length = l.length := by
  induction l with
  | nil => rfl
  | cons o l ih =>
    cases o with
    | none => exact absurd List.mem_cons_self h
    | some a =>
      rw [show entries (some a :: l) = a :: entries l from rfl, List.length_cons, List.length_cons,
        ih fun hmem => h (List.mem_cons_of_mem _ hmem)]

theorem split_of_findIdx (h : l.findIdx? f = some i) :
    ∃ pre o post, l = pre ++ o :: post ∧ f o = true ∧ ∀ o', l.set i o' = pre ++ o' :: post := by
  obtain ⟨hi, hf, -⟩ := List.findIdx?_eq_some_iff_getElem.mp h
  refine ⟨l.take i, l[i], l.drop (i + 1), ?_, hf, fun o' => ?_⟩
  · rw [← List.drop_eq_getElem_cons hi, List.take_append_drop]
  · exact List.set_eq_take_append_cons_drop.trans (if_pos hi)

def firstFree (l : List (Option α)) : Option Nat := l.findIdx? Option.isNone

theorem firstFree_none (h : firstFree l = none) : none ∉ l := by
  intro hmem
  have hall := List.findIdx?_eq_none_iff.mp h none hmem
  cases hall

theorem firstFree_some (h : firstFree l = some i) : ∃ pre post, l = pre ++ none :: post ∧
    ∀ o, l.set i o = pre ++ o :: post := by
  obtain ⟨pre, o, post, hl, ho, hset⟩ := split_of_findIdx h
  obtain rfl := Option.isNone_iff_eq_none.mp ho
  exact ⟨pre, post, hl, hset⟩

def findEntry (l : List (Option α)) (f : α → Bool) : Option (Nat × α) :=
  (l.findIdx? fun slot => slot.any f).bind fun i => (l[i]?.join).map fun a => (i, a)

theorem findEntry_some {f : α → Bool} (h : findEntry l f = some (i, a)) : ∃ pre post,
    l = pre ++ some a :: post ∧ f a = true ∧ ∀ o, l.set i o = pre ++ o :: post := by
  obtain ⟨j, hj, hslot⟩ := Option.bind_eq_some_iff.mp h
  obtain ⟨found, hfound, hpair⟩ := Option.map_eq_some_iff.mp hslot
  obtain ⟨rfl, rfl⟩ := Prod.mk.inj hpair
  obtain ⟨pre, o, post, hl, hf, hset⟩ := split_of_findIdx hj
  obtain ⟨hlt, -⟩ := List.findIdx?_eq_some_iff_getElem.mp hj
  have ho : o = some found := by
    have hself := congrArg (fun l : List (Option α) => l[j]?) (hset o)
    rw [← hl, List.getElem?_set_self hlt] at hself
    rw [← hself] at hfound
    exact hfound
  rw [ho] at hl hf
  exact ⟨pre, post, hl, hf, hset⟩

theorem findEntry_set {f : α → Bool} (h : findEntry l f = some (i, a)) (hb : f b = true) :
    findEntry (l.set i (some b)) f = some (i, b) := by
  obtain ⟨j, hj, hslot⟩ := Option.bind_eq_some_iff.mp h
  obtain ⟨found, -, hpair⟩ := Option.map_eq_some_iff.mp hslot
  obtain ⟨rfl, -⟩ := Prod.mk.inj hpair
  obtain ⟨hlt, -, hfirst⟩ := List.findIdx?_eq_some_iff_getElem.mp hj
  have hlt' : j < (l.set j (some b)).length := by simpa using hlt
  have hfind : (l.set j (some b)).findIdx? (fun slot => slot.any f) = some j := by
    refine List.findIdx?_eq_some_iff_getElem.mpr ⟨hlt', by simpa using hb, fun k hk => ?_⟩
    have hne : j ≠ k := by omega
    rw [List.getElem_set_ne hne]
    exact hfirst k hk
  rw [findEntry, hfind, Option.bind_some, List.getElem?_set_self hlt]
  rfl

theorem findEntry_mem {f : α → Bool} (h : findEntry l f = some (i, a)) : a ∈ entries l := by
  obtain ⟨pre, post, hl, -, -⟩ := findEntry_some h
  rw [mem_entries, hl]
  exact List.mem_append_right pre List.mem_cons_self

theorem findEntry_none_iff {f : α → Bool} :
    findEntry l f = none ↔ ∀ a ∈ entries l, f a = false := by
  constructor
  · intro h a hmem
    cases hidx : l.findIdx? fun slot => slot.any f with
    | none => exact List.findIdx?_eq_none_iff.mp hidx (some a) (mem_entries.mp hmem)
    | some i =>
      obtain ⟨hlt, hhas, -⟩ := List.findIdx?_eq_some_iff_getElem.mp hidx
      cases hslot : l[i] with
      | none =>
        rw [hslot] at hhas
        cases hhas
      | some found => simp [findEntry, hidx, List.getElem?_eq_getElem hlt, hslot] at h
  · intro h
    cases hfound : findEntry l f with
    | none => rfl
    | some found =>
      obtain ⟨i, a⟩ := found
      obtain ⟨pre, post, hl, hf, -⟩ := findEntry_some hfound
      rw [h a (findEntry_mem hfound)] at hf
      cases hf

end SlotTable

end ZoraVM.Foundation
