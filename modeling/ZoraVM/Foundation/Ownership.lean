import ZoraVM.Foundation.Heap

namespace ZoraVM.Foundation

section Ownership

variable {ι α : Type} {heap heap' : Heap α} {own : ι → List Nat} {ps ps' : List Nat} {i j : ι} {q : Nat}

-- An owner's cells ps have become ps': what is not among them any more is freed, what is new was
-- free, and the cells of others are as they were.
structure Turns (heap heap' : Heap α) (ps ps' : List Nat) : Prop where
  elsewhere : ∀ {q}, q ∉ ps → q ∉ ps' → heap'.get q = heap.get q
  fresh : ∀ {q}, q ∈ ps' → q ∈ ps ∨ heap.live q = false
  freed : ∀ {q}, q ∈ ps → q ∉ ps' → heap'.live q = false
  live : ∀ {q}, q ∈ ps' → heap'.live q = true

theorem Turns.refl (h : ∀ q ∈ ps, heap.live q = true) : Turns heap heap ps ps :=
  ⟨fun _ _ => rfl, .inl, fun hq hq' => absurd hq hq', fun hq => h _ hq⟩

-- The live cells are those that someone owns, and each has one owner.
structure Partitioned (heap : Heap α) (own : ι → List Nat) : Prop where
  live_iff : ∀ q, heap.live q = true ↔ ∃ i, q ∈ own i
  apart : ∀ {i j q}, q ∈ own i → q ∈ own j → i = j

namespace Partitioned

theorem nothing : Partitioned (Heap.empty : Heap α) fun _ : ι => [] := by
  refine ⟨fun q => iff_of_false ?_ ?_, fun hq => absurd hq List.not_mem_nil⟩
  · simp [Heap.live]
  · rintro ⟨_, hq⟩
    exact List.not_mem_nil hq

theorem notMem (h : Partitioned heap own) (ht : Turns heap heap' (own i) ps') (hj : j ≠ i)
    (hq : q ∈ own j) : q ∉ own i ∧ q ∉ ps' := by
  have hout : q ∉ own i := fun hmem => hj (h.apart hq hmem)
  refine ⟨hout, fun hmem => ?_⟩
  rcases ht.fresh hmem with hmem | hfree
  · exact hout hmem
  · rw [(h.live_iff q).mpr ⟨j, hq⟩] at hfree
    cases hfree

theorem others (h : Partitioned heap own) (ht : Turns heap heap' (own i) ps') (hj : j ≠ i)
    (hq : q ∈ own j) : heap'.get q = heap.get q :=
  ht.elsewhere (h.notMem ht hj hq).1 (h.notMem ht hj hq).2

theorem turn [DecidableEq ι] (h : Partitioned heap own) (ht : Turns heap heap' (own i) ps') :
    Partitioned heap' (Function.update own i ps') := by
  constructor
  · intro q
    constructor
    · intro hlive
      by_cases hnew : q ∈ ps'
      · exact ⟨i, by rwa [Function.update_self]⟩
      · by_cases hold : q ∈ own i
        · rw [ht.freed hold hnew] at hlive
          cases hlive
        · rw [Heap.live, ht.elsewhere hold hnew] at hlive
          obtain ⟨j, hq⟩ := (h.live_iff q).mp hlive
          have hj : j ≠ i := fun heq => hold (heq ▸ hq)
          exact ⟨j, by rwa [Function.update_of_ne hj]⟩
    · rintro ⟨j, hq⟩
      by_cases hj : j = i
      · subst hj
        rw [Function.update_self] at hq
        exact ht.live hq
      · rw [Function.update_of_ne hj] at hq
        rw [Heap.live, h.others ht hj hq]
        exact (h.live_iff q).mpr ⟨j, hq⟩
  · intro j k q hqj hqk
    by_cases hj : j = i
    · by_cases hk : k = i
      · exact hj.trans hk.symm
      · subst hj
        rw [Function.update_self] at hqj
        rw [Function.update_of_ne hk] at hqk
        exact absurd hqj (h.notMem ht hk hqk).2
    · by_cases hk : k = i
      · subst hk
        rw [Function.update_of_ne hj] at hqj
        rw [Function.update_self] at hqk
        exact absurd hqk (h.notMem ht hj hqj).2
      · rw [Function.update_of_ne hj] at hqj
        rw [Function.update_of_ne hk] at hqk
        exact h.apart hqj hqk

end Partitioned

end Ownership

section Owner

variable {α : Type} {heap : Heap α} {ps qs : List Nat} {p : Nat}

structure Owns (heap : Heap α) (ps : List Nat) : Prop where
  nodup : ps.Nodup
  live_iff : ∀ q, heap.live q = true ↔ q ∈ ps

def freeCell (heap : Heap α) (p : Nat) : Outcome (Heap α) :=
  if heap.live p then .ok (heap.free p) else .error .freedBlock

namespace Owns

theorem nothing : Owns (Heap.empty : Heap α) [] :=
  ⟨List.nodup_nil, fun q => iff_of_false (by simp [Heap.live]) List.not_mem_nil⟩

theorem fresh (h : Owns heap ps) : heap.size ∉ ps := fun hin => by
  have hlive := (h.live_iff heap.size).mpr hin
  simp [Heap.live] at hlive

theorem alloc (h : Owns heap ps) (a : α) : Owns (heap.alloc a) (ps ++ [heap.size]) := by
  constructor
  · refine List.nodup_append.mpr ⟨h.nodup, List.nodup_singleton _, fun q hq r hr heq => ?_⟩
    rw [List.mem_singleton.mp hr] at heq
    exact h.fresh (heq ▸ hq)
  · intro q
    rw [Heap.live, Heap.get_alloc, List.mem_append, List.mem_singleton, ← h.live_iff, Heap.live]
    by_cases hq : q = heap.size <;> simp [hq]

theorem free (h : Owns heap (ps ++ p :: qs)) : Owns (heap.free p) (ps ++ qs) := by
  obtain ⟨hout, hnodup⟩ := List.nodup_cons.mp (List.nodup_middle.mp h.nodup)
  refine ⟨hnodup, fun q => ?_⟩
  have hlive := h.live_iff q
  rw [Heap.live, List.mem_append, List.mem_cons] at hlive
  rw [Heap.live, Heap.get_free]
  by_cases hq : q = p
  · rw [if_pos hq, hq]
    exact iff_of_false (by simp) hout
  · rw [if_neg hq, hlive, List.mem_append]
    simp [hq]

theorem freeCell_eq (h : Owns heap ps) (hp : p ∈ ps) : freeCell heap p = .ok (heap.free p) :=
  if_pos ((h.live_iff p).mpr hp)

theorem freeCells (h : Owns heap (ps ++ qs)) :
    ∃ heap', qs.foldlM freeCell heap = .ok heap' ∧ Owns heap' ps ∧ ∀ q ∈ ps, heap'.get q = heap.get q := by
  induction qs generalizing heap with
  | nil => exact ⟨heap, rfl, by simpa using h, fun _ _ => rfl⟩
  | cons p qs ih =>
    have hp := h.freeCell_eq (p := p) (by simp)
    obtain ⟨heap', hrest, howns, hsame⟩ := ih h.free
    refine ⟨heap', ?_, howns, fun q hq => ?_⟩
    · rw [List.foldlM_cons, hp]
      exact hrest
    · have hne : q ≠ p := by
        rintro rfl
        exact (List.nodup_append.mp h.nodup).2.2 q hq q List.mem_cons_self rfl
      rw [hsame q hq, Heap.get_free_of_ne hne]

end Owns

end Owner

end ZoraVM.Foundation
