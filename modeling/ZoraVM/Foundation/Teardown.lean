import ZoraVM.Foundation.TreeSum

namespace ZoraVM.Foundation

namespace Forest

section Model

variable {β σ : Type}

-- The children first, then what the node holds, then the node; lists and parents are left to dangle.
def tearDown (release : β → σ → Outcome σ) : Nat → Forest β × σ → Nat → Outcome (Forest β × σ)
  | 0, _, _ => .error .stackOverflow
  | fuel + 1, (f, st), n =>
    match f.get n with
    | none => .error .freedNode
    | some c => do
      let (f, st) ← c.children.foldlM (tearDown release fuel) (f, st)
      match valAt f n with
      | none => .error .freedNode
      | some v => do
        let st ← release v st
        .ok (f.free n, st)

def releaseAt (release : β → σ → Outcome σ) (f : Forest β) (st : σ) (n : Nat) : Outcome σ :=
  match valAt f n with
  | none => .error .freedNode
  | some v => release v st

def freeAll (f : Forest β) (ns : List Nat) : Forest β := ns.foldl Heap.free f

end Model

section Order

variable {β σ : Type} {release : β → σ → Outcome σ} {f g : Forest β} {root n m fuel : Nat}
variable {ns order : List Nat}

theorem WellFormed.live_below (h : WellFormed f root) (hn : f.live n = true) (hm : Below f n m) :
    f.live m = true := by
  rcases Relation.ReflTransGen.cases_tail hm with rfl | ⟨p, _, hchild⟩
  · exact hn
  · exact (h.child_parent hchild).1

theorem freeAll_append (f : Forest β) (ns ns' : List Nat) :
    freeAll f (ns ++ ns') = freeAll (freeAll f ns) ns' := List.foldl_append

theorem get_freeAll (f : Forest β) (ns : List Nat) (m : Nat) :
    (freeAll f ns).get m = if m ∈ ns then none else f.get m := by
  induction ns generalizing f with
  | nil => rfl
  | cons n ns ih =>
    rw [freeAll, List.foldl_cons, ← freeAll, ih]
    by_cases hm : m = n
    · subst hm
      rw [Heap.get_free_self, if_pos List.mem_cons_self, ite_self]
    · rw [Heap.get_free_of_ne hm]
      simp only [List.mem_cons, hm, false_or]

def TearsDown (release : β → σ → Outcome σ) (f : Forest β) (within : Nat → Prop) (order : List Nat)
    (run : Forest β × σ → Outcome (Forest β × σ)) : Prop :=
  order.Nodup ∧ (∀ m, m ∈ order ↔ within m) ∧
    ∀ g st, (∀ m, within m → g.get m = f.get m) →
      run (g, st) = (freeAll g order, ·) <$> order.foldlM (releaseAt release f) st

theorem TearsDown.nothing : TearsDown release f (fun _ => False) [] pure := by
  refine ⟨List.nodup_nil, fun m => ?_, fun g st _ => rfl⟩
  simp

theorem TearsDown.andThen {P Q : Nat → Prop} {order' : List Nat}
    {run run' : Forest β × σ → Outcome (Forest β × σ)} (h : TearsDown release f P order run)
    (h' : TearsDown release f Q order' run') (hapart : ∀ m, P m → ¬ Q m) :
    TearsDown release f (fun m => P m ∨ Q m) (order ++ order') fun m => run m >>= run' := by
  obtain ⟨hnodup, hmem, hrun⟩ := h
  obtain ⟨hnodup', hmem', hrun'⟩ := h'
  refine ⟨?_, fun m => ?_, fun g st hsame => ?_⟩
  · refine hnodup.append hnodup' fun m hm hm' => ?_
    exact hapart m ((hmem m).mp hm) ((hmem' m).mp hm')
  · rw [List.mem_append, hmem, hmem']
  · show run (g, st) >>= run' = _
    rw [hrun g st fun m hm => hsame m (.inl hm), List.foldlM_append, freeAll_append]
    cases hfirst : order.foldlM (releaseAt release f) st with
    | error e => rfl
    | ok st' =>
      refine hrun' (freeAll g order) st' fun m hm => ?_
      rw [get_freeAll, if_neg fun hin => hapart m ((hmem m).mp hin) hm]
      exact hsame m (.inr hm)

theorem TearsDown.children {cs : List Nat} (h : WellFormed f root) (hsub : cs ⊆ childrenOf f n)
    (hnodup : cs.Nodup)
    (hself : ∀ c ∈ cs, ∃ order, TearsDown release f (Below f c) order
      (tearDown release fuel · c)) :
    ∃ order, TearsDown release f (fun m => ∃ c ∈ cs, Below f c m) order
      (cs.foldlM (tearDown release fuel)) := by
  induction cs with
  | nil =>
    refine ⟨[], List.nodup_nil, fun m => ?_, fun g st _ => rfl⟩
    simp
  | cons c cs ih =>
    obtain ⟨hfresh, hrest⟩ := List.nodup_cons.mp hnodup
    have hin : ∀ d ∈ cs, d ∈ childrenOf f n := fun d hd => hsub (List.mem_cons_of_mem c hd)
    obtain ⟨order, hfirst⟩ := hself c List.mem_cons_self
    obtain ⟨order', hothers⟩ := ih hin hrest fun d hd => hself d (List.mem_cons_of_mem c hd)
    obtain ⟨hnodup', hmem, hrun⟩ := hfirst.andThen hothers fun m hm => by
      rintro ⟨d, hd, hdm⟩
      exact hfresh (h.child_unique (hsub List.mem_cons_self) (hin d hd) hm hdm ▸ hd)
    refine ⟨order ++ order', hnodup', fun m => ?_, fun g st hsame => ?_⟩
    · rw [hmem]
      simp
    · refine hrun g st fun m hm => hsame m ?_
      rcases hm with hm | ⟨d, hd, hm⟩
      · exact ⟨c, List.mem_cons_self, hm⟩
      · exact ⟨d, List.mem_cons_of_mem c hd, hm⟩

variable (release) in
theorem WellFormed.tearsDown (h : WellFormed f root) (hn : f.live n = true)
    (hfuel : f.size ≤ n + fuel) :
    ∃ order, TearsDown release f (Below f n) order (tearDown release fuel · n) := by
  induction fuel generalizing n with
  | zero => exact absurd (live_lt_size hn) (Nat.not_lt.mpr hfuel)
  | succ fuel ih =>
    obtain ⟨cell, hcell⟩ := Option.isSome_iff_exists.mp hn
    have hlist : childrenOf f n = cell.children := by rw [childrenOf, hcell]; rfl
    have hself : ∀ c ∈ cell.children, ∃ order, TearsDown release f (Below f c) order
        (tearDown release fuel · c) := by
      intro c hc
      obtain ⟨hlive, hparent⟩ := h.child_parent (hlist ▸ hc : c ∈ childrenOf f n)
      have holder := h.older hparent
      exact ih hlive (by omega)
    obtain ⟨order, hnodup, hmem, hrun⟩ := TearsDown.children h (n := n) (hlist ▸ List.Subset.refl _)
      (hlist ▸ h.nodup n) hself
    have hbelow : ∀ m, Below f n m ↔ m = n ∨ ∃ c ∈ cell.children, Below f c m := by
      intro m
      constructor
      · intro hm
        rcases Relation.ReflTransGen.cases_head hm with rfl | ⟨c, hc, hrest⟩
        · exact .inl rfl
        · exact .inr ⟨c, hlist ▸ hc, hrest⟩
      · rintro (rfl | ⟨c, hc, hm⟩)
        · exact .refl
        · exact .head (hlist ▸ hc : c ∈ childrenOf f n) hm
    have hout : n ∉ order := by
      intro hin
      obtain ⟨c, hc, hm⟩ := (hmem n).mp hin
      have hold := h.older (h.child_parent (hlist ▸ hc : c ∈ childrenOf f n)).2
      exact absurd hold (Nat.not_lt.mpr (h.below_le hm))
    refine ⟨order ++ [n], ?_, fun m => ?_, fun g st hsame => ?_⟩
    · refine hnodup.append (List.nodup_singleton n) fun m hm hmn => hout ?_
      rwa [List.mem_singleton.mp hmn] at hm
    · rw [List.mem_append, List.mem_singleton, hmem, hbelow, or_comm]
    · have hget : g.get n = some cell := (hsame n .refl).trans hcell
      have hfirst : cell.children.foldlM (tearDown release fuel) (g, st) = _ :=
        hrun g st fun m hm => hsame m ((hbelow m).mpr (.inr hm))
      simp only [tearDown, hget]
      rw [hfirst, List.foldlM_append, freeAll_append]
      cases hreleased : order.foldlM (releaseAt release f) st with
      | error e => rfl
      | ok st' =>
        have hval : valAt (freeAll g order) n = some cell.val := by
          rw [valAt, get_freeAll, if_neg hout, hget]
          rfl
        have hval' : valAt f n = some cell.val := by rw [valAt, hcell]; rfl
        simp only [Functor.map, Except.map, bind, Except.bind, hval, List.foldlM_cons, List.foldlM_nil,
          releaseAt, hval']
        cases release cell.val st' with
        | error e => rfl
        | ok st'' => rfl

end Order

end Forest

end ZoraVM.Foundation
