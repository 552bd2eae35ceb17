import Mathlib.Tactic

namespace ZoraVM.Foundation

structure Pool (total : Nat) where
  taken : Finset Nat
  bounded : ∀ {i}, i ∈ taken → i < total

namespace Pool

variable {total : Nat}

def empty (total : Nat) : Pool total := ⟨∅, fun h => absurd h (Finset.notMem_empty _)⟩

def take (p : Pool total) (i : Nat) (hi : i < total) : Pool total where
  taken := insert i p.taken
  bounded := by
    intro j hj
    rcases Finset.mem_insert.mp hj with rfl | hj
    · exact hi
    · exact p.bounded hj

def give (p : Pool total) (i : Nat) : Pool total where
  taken := p.taken.erase i
  bounded := fun hj => p.bounded (Finset.mem_of_mem_erase hj)

def Lowest (p : Pool total) (i : Nat) : Prop := i < total ∧ i ∉ p.taken ∧ ∀ j < i, j ∈ p.taken

def Full (p : Pool total) : Prop := ∀ i < total, i ∈ p.taken

def search (p : Pool total) (hint : Nat) : Option Nat :=
  (List.range' hint (total - hint)).find? fun i => decide (i ∉ p.taken)

variable {p : Pool total} {hint i : Nat}

theorem card_le (p : Pool total) : p.taken.card ≤ total := by
  have hsub : p.taken ⊆ Finset.range total := fun _ hi => Finset.mem_range.mpr (p.bounded hi)
  simpa using Finset.card_le_card hsub

theorem card_take (hi : i < total) (hfree : i ∉ p.taken) :
    (p.take i hi).taken.card = p.taken.card + 1 := Finset.card_insert_of_notMem hfree

theorem card_give (hi : i ∈ p.taken) : (p.give i).taken.card + 1 = p.taken.card :=
  Finset.card_erase_add_one hi

theorem card_lt (hi : i < total) (hfree : i ∉ p.taken) : p.taken.card < total := by
  have hcard := card_take hi hfree
  have hle := card_le (p.take i hi)
  omega

theorem search_eq_some (hbelow : ∀ j < hint, j ∈ p.taken) :
    p.search hint = some i ↔ p.Lowest i := by
  rw [search, List.find?_range'_eq_some]
  constructor
  · rintro ⟨hfree, hmem, hlow⟩
    obtain ⟨hle, hlt⟩ := List.mem_range'_1.mp hmem
    refine ⟨by omega, of_decide_eq_true hfree, fun j hj => ?_⟩
    rcases Nat.lt_or_ge j hint with hj' | hj'
    · exact hbelow j hj'
    · simpa using hlow j hj' hj
  · rintro ⟨hlt, hfree, hlow⟩
    have hle : hint ≤ i := by
      by_contra hlt'
      exact hfree (hbelow i (by omega))
    refine ⟨decide_eq_true hfree, List.mem_range'_1.mpr ⟨hle, by omega⟩, fun j _ hj => ?_⟩
    simpa using hlow j hj

theorem search_eq_none (hbelow : ∀ j < hint, j ∈ p.taken) :
    p.search hint = none ↔ p.Full := by
  rw [search, List.find?_eq_none]
  constructor
  · intro hall i hi
    rcases Nat.lt_or_ge i hint with hlow | hhigh
    · exact hbelow i hlow
    · simpa using hall i (List.mem_range'_1.mpr ⟨hhigh, by omega⟩)
  · intro hfull i hi
    obtain ⟨_, hlt⟩ := List.mem_range'_1.mp hi
    simpa using hfull i (by omega)

theorem below_take {i : Nat} (hi : i < total) (hlow : ∀ j < i, j ∈ p.taken) {j : Nat}
    (hj : j < i + 1) : j ∈ (p.take i hi).taken := by
  rcases Nat.lt_succ_iff_lt_or_eq.mp hj with hj | rfl
  · exact Finset.mem_insert_of_mem (hlow j hj)
  · exact Finset.mem_insert_self _ _

theorem below_give (hbelow : ∀ j < hint, j ∈ p.taken) {j : Nat} (hj : j < min i hint) :
    j ∈ (p.give i).taken :=
  Finset.mem_erase.mpr ⟨by omega, hbelow j (by omega)⟩

end Pool

end ZoraVM.Foundation
