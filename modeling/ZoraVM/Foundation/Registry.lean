import Mathlib.Tactic

namespace ZoraVM.Foundation

universe u v

section Registry

variable {α : Type u} {κ : Type v} [DecidableEq κ] {key : α → κ} {l : List α} {a b : α} {k k' : κ}

def holder (key : α → κ) (l : List α) (k : κ) : Option α := l.find? fun a => key a = k

def KeysDistinct (key : α → κ) (l : List α) : Prop := (l.map key).Nodup

theorem holder_of_mem (h : KeysDistinct key l) (hmem : a ∈ l) : holder key l (key a) = some a := by
  induction l with
  | nil => cases hmem
  | cons x xs ih =>
    obtain ⟨hx, hxs⟩ := List.nodup_cons.mp h
    rcases List.mem_cons.mp hmem with rfl | hmem
    · simp [holder]
    · have hne : key x ≠ key a := by
        intro he
        rw [he] at hx
        exact hx (List.mem_map_of_mem hmem)
      rw [holder, List.find?_cons_of_neg (by simpa using hne)]
      exact ih hxs hmem

theorem holder_append_of_some (h : holder key l k = some a) (b : α) :
    holder key (l ++ [b]) k = some a := by
  rw [holder, List.find?_append]
  rw [holder] at h
  rw [h]
  rfl

omit [DecidableEq κ] in
theorem keysDistinct_append (h : KeysDistinct key l) (hb : ∀ a ∈ l, key a ≠ key b) :
    KeysDistinct key (l ++ [b]) := by
  rw [KeysDistinct, List.map_append, List.map_singleton]
  refine List.nodup_append.mpr ⟨h, List.nodup_singleton _, ?_⟩
  intro x hx y hy
  obtain ⟨a, ha, rfl⟩ := List.mem_map.mp hx
  obtain rfl := List.mem_singleton.mp hy
  exact hb a ha

def adjust (key : α → κ) (l : List α) (k : κ) (f : α → α) : List α :=
  match l with
  | [] => []
  | a :: l => if key a = k then f a :: l else a :: adjust key l k f

theorem holder_adjust {f : α → α} (hf : ∀ a, key (f a) = key a) :
    holder key (adjust key l k f) k = (holder key l k).map f := by
  induction l with
  | nil => rfl
  | cons x xs ih =>
    rcases Decidable.em (key x = k) with hx | hx
    · rw [adjust, if_pos hx, holder, holder, List.find?_cons_of_pos (by simpa [hf] using hx),
        List.find?_cons_of_pos (by simpa using hx), Option.map_some]
    · rw [adjust, if_neg hx, holder, holder, List.find?_cons_of_neg (by simpa using hx),
        List.find?_cons_of_neg (by simpa using hx)]
      exact ih

theorem holder_adjust_of_ne {f : α → α} (hf : ∀ a, key (f a) = key a) (h : k' ≠ k) :
    holder key (adjust key l k f) k' = holder key l k' := by
  induction l with
  | nil => rfl
  | cons x xs ih =>
    rw [adjust]
    split
    · next hx =>
      have hother : ¬ key x = k' := fun hk => h (hk.symm.trans hx)
      rw [holder, holder, List.find?_cons_of_neg (by simpa [hf] using hother),
        List.find?_cons_of_neg (by simpa using hother)]
    · by_cases hx' : key x = k'
      · simp [holder, hx']
      · rw [holder, holder, List.find?_cons_of_neg (by simpa using hx'),
          List.find?_cons_of_neg (by simpa using hx')]
        exact ih

theorem map_adjust_of {β : Type*} {g : α → β} {f : α → α} (hg : ∀ a, g (f a) = g a) (l : List α)
    (k : κ) : (adjust key l k f).map g = l.map g := by
  induction l with
  | nil => rfl
  | cons x xs ih =>
    rw [adjust]
    split
    · rw [List.map_cons, List.map_cons, hg]
    · rw [List.map_cons, List.map_cons, ih]

theorem map_adjust {f : α → α} (hf : ∀ a, key (f a) = key a) (l : List α) (k : κ) :
    (adjust key l k f).map key = l.map key := map_adjust_of hf l k

theorem holder_eq_none_iff : holder key l k = none ↔ k ∉ l.map key := by
  simp [holder, List.find?_eq_none]

theorem holder_append_of_ne (h : key b ≠ k) : holder key (l ++ [b]) k = holder key l k := by
  rw [holder, List.find?_append, List.find?_cons_of_neg (by simpa using h), List.find?_nil,
    Option.or_none]
  rfl

theorem holder_append_fresh (h : ∀ a ∈ l, key a ≠ key b) :
    holder key (l ++ [b]) (key b) = some b := by
  have hnone : l.find? (fun a => decide (key a = key b)) = none :=
    List.find?_eq_none.mpr fun a ha => by simpa using h a ha
  rw [holder, List.find?_append, hnone, List.find?_cons_of_pos (by simp), Option.none_or]

def withdraw (key : α → κ) (l : List α) (k : κ) : List α := l.eraseP fun a => key a = k

theorem withdraw_sublist (l : List α) (k : κ) : (withdraw key l k).Sublist l :=
  List.eraseP_sublist

theorem keysDistinct_withdraw (h : KeysDistinct key l) (k : κ) :
    KeysDistinct key (withdraw key l k) :=
  List.Nodup.sublist ((withdraw_sublist l k).map key) h

theorem holder_withdraw (h : k' ≠ k) : holder key (withdraw key l k) k' = holder key l k' := by
  induction l with
  | nil => rfl
  | cons x xs ih =>
    by_cases hx : key x = k
    · have hne : ¬ key x = k' := by
        rintro rfl
        exact h hx
      simp [withdraw, holder, hx, Ne.symm h]
    · rw [withdraw, List.eraseP_cons_of_neg (by simpa using hx)]
      by_cases hx' : key x = k'
      · simp [holder, hx']
      · rw [holder, holder, List.find?_cons_of_neg (by simpa using hx'),
          List.find?_cons_of_neg (by simpa using hx')]
        exact ih

end Registry

end ZoraVM.Foundation
