import Mathlib.Algebra.BigOperators.Group.Finset.Basic
import Mathlib.Data.Finset.Union
import ZoraVM.Foundation.Forest

namespace ZoraVM.Foundation

namespace Forest

section Descent

variable {β : Type} {f : Forest β} {root n m k : Nat}

theorem WellFormed.below_le (h : WellFormed f root) (hbelow : Below f n m) : n ≤ m := by
  induction hbelow with
  | refl => exact Nat.le_refl n
  | tail _ hchild ih => exact Nat.le_trans ih (Nat.le_of_lt (h.older (h.child_parent hchild).2))

theorem WellFormed.below_of_below (h : WellFormed f root) (hn : Below f n m) (hk : Below f k m)
    (hle : n ≤ k) : Below f n k := by
  induction hk with
  | refl => exact hn
  | @tail p m hkp hchild ih =>
    rcases Relation.ReflTransGen.cases_tail hn with rfl | ⟨q, hnq, hchild'⟩
    · have hkn := h.below_le (hkp.tail hchild)
      rw [Nat.le_antisymm hle hkn]
      exact .refl
    · have hsame := (h.child_parent hchild').2.symm.trans (h.child_parent hchild).2
      obtain rfl := Option.some.inj hsame
      exact ih hnq

theorem WellFormed.child_unique (h : WellFormed f root) {c d : Nat} (hc : c ∈ childrenOf f n)
    (hd : d ∈ childrenOf f n) (hcm : Below f c m) (hdm : Below f d m) : c = d := by
  have hdirect : ∀ {c d}, c ∈ childrenOf f n → d ∈ childrenOf f n → Below f c d → c = d := by
    intro c d hc hd hcd
    rcases Relation.ReflTransGen.cases_tail hcd with heq | ⟨p, hcp, hchild⟩
    · exact heq.symm
    · have hsame := (h.child_parent hchild).2.symm.trans (h.child_parent hd).2
      obtain rfl := Option.some.inj hsame
      exact absurd (h.older (h.child_parent hc).2) (Nat.not_lt.mpr (h.below_le hcp))
  rcases Nat.le_total c d with hle | hle
  · exact hdirect hc hd (h.below_of_below hcm hdm hle)
  · exact (hdirect hd hc (h.below_of_below hdm hcm hle)).symm

end Descent

section Sum

variable {β M : Type} [AddCommMonoid M]

def addUp (enters : β → Bool) (weight : β → M) (f : Forest β) : Nat → Nat → Outcome M
  | 0, _ => .error .stackOverflow
  | fuel + 1, n =>
    match valAt f n with
    | none => .error .freedNode
    | some v =>
      if enters v then
        (childrenOf f n).foldlM (fun total c => (total + ·) <$> addUp enters weight f fuel c) (weight v)
      else .ok (weight v)

open Classical in
noncomputable def nodesBelow (f : Forest β) (n : Nat) : Finset Nat :=
  (Finset.range f.size).filter fun m => Below f n m ∧ f.live m = true

def liveNodes (f : Forest β) : Finset Nat := (Finset.range f.size).filter fun m => f.live m = true

def weightAt (weight : β → M) (f : Forest β) (n : Nat) : M := ((valAt f n).map weight).getD 0

variable {enters : β → Bool} {weight : β → M} {f : Forest β} {root n m fuel : Nat}

theorem mem_nodesBelow : m ∈ nodesBelow f n ↔ Below f n m ∧ f.live m = true := by
  classical
  unfold nodesBelow
  rw [Finset.mem_filter, Finset.mem_range]
  exact ⟨fun h => h.2, fun h => ⟨live_lt_size h.2, h⟩⟩

theorem mem_liveNodes : m ∈ liveNodes f ↔ f.live m = true := by
  unfold liveNodes
  rw [Finset.mem_filter, Finset.mem_range]
  exact ⟨fun h => h.2, fun h => ⟨live_lt_size h, h⟩⟩

theorem WellFormed.nodesBelow_root (h : WellFormed f root) : nodesBelow f root = liveNodes f := by
  ext m
  rw [mem_nodesBelow, mem_liveNodes]
  exact ⟨fun hm => hm.2, fun hm => ⟨h.below_root hm, hm⟩⟩

theorem nodesBelow_eq (hn : f.live n = true) :
    nodesBelow f n = insert n ((childrenOf f n).toFinset.biUnion (nodesBelow f)) := by
  ext m
  rw [mem_nodesBelow, Finset.mem_insert, Finset.mem_biUnion]
  constructor
  · rintro ⟨hbelow, hm⟩
    rcases Relation.ReflTransGen.cases_head hbelow with rfl | ⟨c, hc, hrest⟩
    · exact .inl rfl
    · exact .inr ⟨c, List.mem_toFinset.mpr hc, mem_nodesBelow.mpr ⟨hrest, hm⟩⟩
  · rintro (rfl | ⟨c, hc, hm⟩)
    · exact ⟨.refl, hn⟩
    · obtain ⟨hrest, hlive⟩ := mem_nodesBelow.mp hm
      exact ⟨.head (List.mem_toFinset.mp hc) hrest, hlive⟩

theorem WellFormed.sum_nodesBelow (h : WellFormed f root) (hn : f.live n = true) (w : Nat → M) :
    ∑ m ∈ nodesBelow f n, w m =
      w n + ((childrenOf f n).map fun c => ∑ m ∈ nodesBelow f c, w m).sum := by
  have hself : n ∉ (childrenOf f n).toFinset.biUnion (nodesBelow f) := by
    rw [Finset.mem_biUnion]
    rintro ⟨c, hc, hin⟩
    have hchild := List.mem_toFinset.mp hc
    have hback := h.below_le (mem_nodesBelow.mp hin).1
    exact absurd (h.older (h.child_parent hchild).2) (Nat.not_lt.mpr hback)
  have hapart : ((childrenOf f n).toFinset : Set Nat).PairwiseDisjoint (nodesBelow f) := by
    intro c hc d hd hne
    refine Finset.disjoint_left.mpr fun m hcm hdm => hne ?_
    exact h.child_unique (List.mem_toFinset.mp hc) (List.mem_toFinset.mp hd) (mem_nodesBelow.mp hcm).1
      (mem_nodesBelow.mp hdm).1
  rw [nodesBelow_eq hn, Finset.sum_insert hself, Finset.sum_biUnion hapart,
    List.sum_toFinset _ (h.nodup n)]

theorem foldlM_add {self : Nat → Outcome M} {g : Nat → M} {l : List Nat}
    (h : ∀ c ∈ l, self c = .ok (g c)) (a : M) :
    l.foldlM (fun total c => (total + ·) <$> self c) a = .ok (a + (l.map g).sum) := by
  induction l generalizing a with
  | nil => simp [pure, Except.pure]
  | cons c l ih =>
    have hc : (a + ·) <$> self c = .ok (a + g c) := by
      rw [h c List.mem_cons_self]
      rfl
    have hrest := ih (fun d hd => h d (List.mem_cons_of_mem c hd)) (a + g c)
    rw [List.foldlM_cons, hc, List.map_cons, List.sum_cons, ← add_assoc]
    exact hrest

theorem WellFormed.addUp_eq (h : WellFormed f root)
    (hleaf : ∀ {n v}, valAt f n = some v → enters v = false → childrenOf f n = [])
    (hn : f.live n = true) (hfuel : f.size ≤ n + fuel) :
    addUp enters weight f fuel n = .ok (∑ m ∈ nodesBelow f n, weightAt weight f m) := by
  induction fuel generalizing n with
  | zero => exact absurd (live_lt_size hn) (Nat.not_lt.mpr hfuel)
  | succ fuel ih =>
    obtain ⟨v, hv⟩ := live_iff_valAt.mp hn
    have hweight : weightAt weight f n = weight v := by
      rw [weightAt, hv]
      rfl
    have hchildren : ∀ c ∈ childrenOf f n, addUp enters weight f fuel c =
        .ok (∑ m ∈ nodesBelow f c, weightAt weight f m) := by
      intro c hc
      obtain ⟨hlive, hparent⟩ := h.child_parent hc
      have holder := h.older hparent
      exact ih hlive (by omega)
    rw [addUp, h.sum_nodesBelow hn, hv, hweight]
    dsimp only
    split
    · exact foldlM_add hchildren (weight v)
    · next hclosed =>
      rw [hleaf hv (Bool.eq_false_iff.mpr hclosed), List.map_nil, List.sum_nil, add_zero]

variable (weight) in
theorem WellFormed.addUp_root (h : WellFormed f root)
    (hleaf : ∀ {n v}, valAt f n = some v → enters v = false → childrenOf f n = [])
    (hfuel : f.size ≤ fuel) :
    addUp enters weight f fuel root = .ok (∑ m ∈ liveNodes f, weightAt weight f m) := by
  rw [← h.nodesBelow_root]
  exact h.addUp_eq hleaf h.root_live (by omega)

end Sum

end Forest

end ZoraVM.Foundation
