import Mathlib.Data.List.Chain
import Mathlib.Tactic

namespace ZoraVM.Foundation

section Runs

variable {α : Type}

structure MaximalRuns (l : List α) (rs : List (α × Nat)) : Prop where
  expand : rs.flatMap (fun r => List.replicate r.2 r.1) = l
  positive : ∀ r ∈ rs, 0 < r.2
  apart : rs.IsChain fun r r' => r.1 ≠ r'.1

variable {l : List α} {rs : List (α × Nat)} {a : α} {n : Nat}

theorem MaximalRuns.mem (h : MaximalRuns l rs) (ha : a ∈ l) : ∃ r ∈ rs, r.1 = a := by
  rw [← h.expand] at ha
  obtain ⟨r, hr, hin⟩ := List.mem_flatMap.mp ha
  exact ⟨r, hr, (List.eq_of_mem_replicate hin).symm⟩

theorem MaximalRuns.fst_mem (h : MaximalRuns l rs) {r : α × Nat} (hr : r ∈ rs) : r.1 ∈ l := by
  rw [← h.expand]
  exact List.mem_flatMap.mpr ⟨r, hr, List.mem_replicate.mpr ⟨(h.positive r hr).ne', rfl⟩⟩

variable [DecidableEq α]

def runsFrom (a : α) (n : Nat) : List α → List (α × Nat)
  | [] => [(a, n)]
  | b :: l => if b = a then runsFrom a (n + 1) l else (a, n) :: runsFrom b 1 l

def runs : List α → List (α × Nat)
  | [] => []
  | a :: l => runsFrom a 1 l

theorem runsFrom_head (a : α) (n : Nat) (l : List α) :
    ∃ k rest, runsFrom a n l = (a, n + k) :: rest := by
  induction l generalizing n with
  | nil => exact ⟨0, [], rfl⟩
  | cons b l ih =>
    rw [runsFrom]
    split
    · obtain ⟨k, rest, heq⟩ := ih (n + 1)
      exact ⟨1 + k, rest, by rw [heq, Nat.add_assoc]⟩
    · exact ⟨0, _, rfl⟩

theorem maximalRuns_runsFrom (hn : 0 < n) (a : α) (l : List α) :
    MaximalRuns (List.replicate n a ++ l) (runsFrom a n l) := by
  induction l generalizing a n with
  | nil =>
    refine ⟨by simp [runsFrom], fun r hr => ?_, List.isChain_singleton _⟩
    rw [List.mem_singleton.mp hr]
    exact hn
  | cons b l ih =>
    rw [runsFrom]
    split
    · rename_i hb
      have hrest := ih (Nat.succ_pos n) a
      rw [List.replicate_succ', List.append_assoc, List.singleton_append] at hrest
      rwa [hb]
    · rename_i hb
      have hrest := ih Nat.one_pos b
      rw [List.replicate_one, List.singleton_append] at hrest
      refine ⟨by rw [List.flatMap_cons, hrest.expand], fun r hr => ?_, ?_⟩
      · rcases List.mem_cons.mp hr with rfl | hr
        · exact hn
        · exact hrest.positive r hr
      · obtain ⟨k, rest, heq⟩ := runsFrom_head b 1 l
        have hchain := hrest.apart
        rw [heq] at hchain ⊢
        exact List.isChain_cons_cons.mpr ⟨Ne.symm hb, hchain⟩

theorem maximalRuns_runs (l : List α) : MaximalRuns l (runs l) := by
  cases l with
  | nil => exact ⟨rfl, nofun, .nil⟩
  | cons a l => exact maximalRuns_runsFrom Nat.one_pos a l

end Runs

end ZoraVM.Foundation
