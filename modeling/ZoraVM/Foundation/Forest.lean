import ZoraVM.Foundation.Heap

namespace ZoraVM.Foundation

structure Cell (β : Type) where
  val : β
  parent : Option Nat
  children : List Nat
  deriving DecidableEq, Repr

abbrev Forest (β : Type) := Heap (Cell β)

namespace Forest

section Operations

variable {β : Type}

def valAt (f : Forest β) (n : Nat) : Option β := (f.get n).map Cell.val

def childrenOf (f : Forest β) (n : Nat) : List Nat := (f.get n).elim [] Cell.children

def parentOf (f : Forest β) (n : Nat) : Option Nat := (f.get n).bind Cell.parent

def link (f : Forest β) (p : Nat) (v : β) : Forest β :=
  (f.alloc ⟨v, some p, []⟩).modify p (fun c => { c with children := f.size :: c.children })

def unlink (f : Forest β) (n : Nat) : Forest β :=
  match parentOf f n with
  | none => f.free n
  | some p => (f.modify p (fun c => { c with children := c.children.erase n })).free n

def update (f : Forest β) (n : Nat) (g : β → β) : Forest β :=
  f.modify n (fun c => { c with val := g c.val })

@[simp] theorem size_link (f : Forest β) (p : Nat) (v : β) : (link f p v).size = f.size + 1 := by
  simp [link]

@[simp] theorem size_unlink (f : Forest β) (n : Nat) : (unlink f n).size = f.size := by
  unfold unlink
  cases parentOf f n <;> simp

@[simp] theorem size_update (f : Forest β) (n : Nat) (g : β → β) : (update f n g).size = f.size := by
  simp [update]

theorem get_link_fresh {f : Forest β} {p : Nat} (hp : p < f.size) (v : β) :
    (link f p v).get f.size = some ⟨v, some p, []⟩ := by
  rw [link, Heap.get_modify_of_ne (Nat.ne_of_gt hp), Heap.get_alloc_self]

theorem get_link_parent {f : Forest β} {p : Nat} {c : Cell β} (hp : f.get p = some c) (v : β) :
    (link f p v).get p = some { c with children := f.size :: c.children } := by
  rw [link, Heap.get_modify_self, Heap.get_alloc_of_get hp]
  rfl

theorem get_link_of_ne {f : Forest β} {p m : Nat} (hm : m ≠ f.size) (hmp : m ≠ p) (v : β) :
    (link f p v).get m = f.get m := by
  rw [link, Heap.get_modify_of_ne hmp, Heap.get_alloc_of_ne hm]

theorem get_unlink_self (f : Forest β) (n : Nat) : (unlink f n).get n = none := by
  unfold unlink
  cases parentOf f n <;> simp

theorem get_unlink_of_ne {f : Forest β} {n m : Nat} (hm : m ≠ n) (hmp : parentOf f n ≠ some m) :
    (unlink f n).get m = f.get m := by
  unfold unlink
  cases h : parentOf f n with
  | none => simp [Heap.get_free_of_ne hm]
  | some p =>
    have hne : m ≠ p := fun e => hmp (e ▸ h)
    simp [Heap.get_free_of_ne hm, Heap.get_modify_of_ne hne]

theorem get_unlink_parent {f : Forest β} {n p : Nat} (hp : parentOf f n = some p) (hne : p ≠ n) :
    (unlink f n).get p = (f.get p).map (fun c => { c with children := c.children.erase n }) := by
  simp [unlink, hp, Heap.get_free_of_ne hne]

theorem get_update (f : Forest β) (n m : Nat) (g : β → β) :
    (update f n g).get m = if m = n then (f.get n).map (fun c => { c with val := g c.val })
      else f.get m := by
  simp [update, Heap.get_modify]

theorem get_update_of_ne {f : Forest β} {n m : Nat} (g : β → β) (hm : m ≠ n) :
    (update f n g).get m = f.get m := by simp [get_update, hm]

theorem valAt_update (f : Forest β) (n m : Nat) (g : β → β) :
    valAt (update f n g) m = if m = n then (valAt f n).map g else valAt f m := by
  by_cases hm : m = n
  · subst hm
    cases h : f.get m <;> simp [valAt, get_update, h]
  · simp [valAt, get_update_of_ne g hm, hm]

theorem valAt_update_self (f : Forest β) (n : Nat) (g : β → β) :
    valAt (update f n g) n = (valAt f n).map g := by simp [valAt_update]

theorem valAt_update_of_ne {f : Forest β} {n m : Nat} (g : β → β) (hm : m ≠ n) :
    valAt (update f n g) m = valAt f m := by simp [valAt_update, hm]

theorem childrenOf_update (f : Forest β) (n m : Nat) (g : β → β) :
    childrenOf (update f n g) m = childrenOf f m := by
  by_cases hm : m = n
  · subst hm
    cases h : f.get m <;> simp [childrenOf, get_update, h]
  · simp [childrenOf, get_update_of_ne g hm]

theorem parentOf_update (f : Forest β) (n m : Nat) (g : β → β) :
    parentOf (update f n g) m = parentOf f m := by
  by_cases hm : m = n
  · subst hm
    cases h : f.get m <;> simp [parentOf, get_update, h]
  · simp [parentOf, get_update_of_ne g hm]

end Operations

section WellFormed

variable {β : Type}

-- `older` is what makes upward walks end: a node is always made after its parent.
structure WellFormed (f : Forest β) (root : Nat) : Prop where
  root_live : f.live root = true
  rooted : ∀ {n}, f.live n = true → (parentOf f n = none ↔ n = root)
  child_parent : ∀ {n m}, m ∈ childrenOf f n → f.live m = true ∧ parentOf f m = some n
  parent_child : ∀ {n m}, parentOf f m = some n → m ∈ childrenOf f n
  nodup : ∀ n, (childrenOf f n).Nodup
  older : ∀ {n m}, parentOf f m = some n → n < m

structure Linked (f : Forest β) : Prop where
  child_parent : ∀ {n m}, m ∈ childrenOf f n → f.live m = true ∧ parentOf f m = some n
  nodup : ∀ n, (childrenOf f n).Nodup
  older : ∀ {n m}, parentOf f m = some n → n < m

variable {f : Forest β} {root p n : Nat}

theorem WellFormed.linked (h : WellFormed f root) : Linked f := ⟨h.child_parent, h.nodup, h.older⟩

theorem live_lt_size (h : f.live n = true) : n < f.size := by
  obtain ⟨c, hc⟩ := Option.isSome_iff_exists.mp h
  exact Heap.lt_size_of_get hc

theorem not_live_size (f : Forest β) : f.live f.size = false := by simp [Heap.live]

theorem childrenOf_size (f : Forest β) : childrenOf f f.size = [] := by simp [childrenOf]

theorem childrenOf_link (hp : f.live p = true) (v : β) (m : Nat) :
    childrenOf (link f p v) m = if m = p then f.size :: childrenOf f p else childrenOf f m := by
  obtain ⟨c, hc⟩ := Option.isSome_iff_exists.mp hp
  have hlt := Heap.lt_size_of_get hc
  by_cases hmp : m = p
  · subst hmp
    simp [childrenOf, get_link_parent hc, hc]
  · by_cases hm : m = f.size
    · subst hm
      simp [childrenOf, get_link_fresh hlt, hmp]
    · simp [childrenOf, get_link_of_ne hm hmp, hmp]

theorem parentOf_link (hp : f.live p = true) (v : β) (m : Nat) :
    parentOf (link f p v) m = if m = f.size then some p else parentOf f m := by
  obtain ⟨c, hc⟩ := Option.isSome_iff_exists.mp hp
  have hlt := Heap.lt_size_of_get hc
  by_cases hm : m = f.size
  · subst hm
    simp [parentOf, get_link_fresh hlt]
  · by_cases hmp : m = p
    · subst hmp
      simp [parentOf, get_link_parent hc, hc, hm]
    · simp [parentOf, get_link_of_ne hm hmp, hm]

theorem live_iff_valAt : f.live n = true ↔ ∃ v, valAt f n = some v := by
  cases h : f.get n <;> simp [Heap.live, valAt, h]

theorem valAt_link (hp : f.live p = true) (v : β) (m : Nat) :
    valAt (link f p v) m = if m = f.size then some v else valAt f m := by
  obtain ⟨c, hc⟩ := Option.isSome_iff_exists.mp hp
  have hlt := Heap.lt_size_of_get hc
  by_cases hm : m = f.size
  · subst hm
    simp [valAt, get_link_fresh hlt]
  · by_cases hmp : m = p
    · subst hmp
      simp [valAt, get_link_parent hc, hc, hm]
    · simp [valAt, get_link_of_ne hm hmp, hm]

theorem valAt_link_of_live {m : Nat} (hp : f.live p = true) (v : β) (hm : f.live m = true) :
    valAt (link f p v) m = valAt f m := by
  rw [valAt_link hp, if_neg (Nat.ne_of_lt (live_lt_size hm))]

theorem live_link (hp : f.live p = true) (v : β) (m : Nat) :
    (link f p v).live m = true ↔ m = f.size ∨ f.live m = true := by
  obtain ⟨c, hc⟩ := Option.isSome_iff_exists.mp hp
  have hlt := Heap.lt_size_of_get hc
  by_cases hm : m = f.size
  · subst hm
    simp [Heap.live, get_link_fresh hlt]
  · by_cases hmp : m = p
    · subst hmp
      simp [Heap.live, get_link_parent hc, hc]
    · simp [Heap.live, get_link_of_ne hm hmp, hm]

theorem Linked.link (h : Linked f) (hp : f.live p = true) (v : β) : Linked (link f p v) where
  child_parent := by
    intro m k hk
    rw [childrenOf_link hp] at hk
    rw [parentOf_link hp, live_link hp]
    by_cases hm : m = p
    · subst hm
      rcases List.mem_cons.mp (by simpa using hk) with rfl | hk
      · exact ⟨.inl rfl, by simp⟩
      · obtain ⟨hl, hpar⟩ := h.child_parent hk
        exact ⟨.inr hl, by rw [if_neg (Nat.ne_of_lt (live_lt_size hl)), hpar]⟩
    · rw [if_neg hm] at hk
      obtain ⟨hl, hpar⟩ := h.child_parent hk
      exact ⟨.inr hl, by rw [if_neg (Nat.ne_of_lt (live_lt_size hl)), hpar]⟩
  nodup := by
    intro m
    rw [childrenOf_link hp]
    split
    · refine List.nodup_cons.mpr ⟨fun hin => ?_, h.nodup p⟩
      simpa [not_live_size] using (h.child_parent hin).1
    · exact h.nodup m
  older := by
    intro m k hk
    rw [parentOf_link hp] at hk
    split at hk
    · next hkf =>
      obtain rfl := Option.some.inj hk
      exact hkf ▸ live_lt_size hp
    · exact h.older hk

theorem WellFormed.link (h : WellFormed f root) (hp : f.live p = true) (v : β) :
    WellFormed (link f p v) root where
  root_live := (live_link hp v root).mpr (.inr h.root_live)
  rooted := by
    intro m hm
    rw [parentOf_link hp]
    rcases (live_link hp v m).mp hm with rfl | hm
    · have hne : f.size ≠ root := (Nat.ne_of_gt (live_lt_size h.root_live))
      simp [hne]
    · rw [if_neg (Nat.ne_of_lt (live_lt_size hm))]
      exact h.rooted hm
  child_parent := (h.linked.link hp v).child_parent
  parent_child := by
    intro m k hk
    rw [parentOf_link hp] at hk
    rw [childrenOf_link hp]
    by_cases hkf : k = f.size
    · rw [if_pos hkf] at hk
      obtain rfl := Option.some.inj hk
      simp [hkf]
    · rw [if_neg hkf] at hk
      by_cases hm : m = p
      · subst hm
        simpa [hkf] using h.parent_child hk
      · simpa [hm] using h.parent_child hk
  nodup := (h.linked.link hp v).nodup
  older := (h.linked.link hp v).older

theorem live_update (f : Forest β) (n m : Nat) (g : β → β) : (update f n g).live m = f.live m := by
  by_cases hm : m = n
  · subst hm
    simp [Heap.live, get_update]
  · simp [Heap.live, get_update_of_ne g hm]

theorem Linked.update (h : Linked f) (n : Nat) (g : β → β) : Linked (update f n g) := by
  refine ⟨fun {m k} hk => ?_, fun m => ?_, fun {m k} hk => ?_⟩
  · rw [childrenOf_update] at hk
    rw [parentOf_update, live_update]
    exact h.child_parent hk
  · rw [childrenOf_update]
    exact h.nodup m
  · rw [parentOf_update] at hk
    exact h.older hk

theorem WellFormed.update (h : WellFormed f root) (n : Nat) (g : β → β) :
    WellFormed (update f n g) root where
  root_live := by
    rw [live_update]
    exact h.root_live
  rooted := by
    intro m hm
    rw [live_update] at hm
    rw [parentOf_update]
    exact h.rooted hm
  child_parent := (h.linked.update n g).child_parent
  parent_child := by
    intro m k hk
    rw [parentOf_update] at hk
    rw [childrenOf_update]
    exact h.parent_child hk
  nodup := (h.linked.update n g).nodup
  older := (h.linked.update n g).older

def Below (f : Forest β) : Nat → Nat → Prop :=
  Relation.ReflTransGen fun p n => n ∈ childrenOf f p

theorem live_of_child {n m : Nat} (h : m ∈ childrenOf f n) : f.live n = true := by
  cases hg : f.get n with
  | none => simp [childrenOf, hg] at h
  | some c => simp [Heap.live, hg]

theorem WellFormed.below_root (h : WellFormed f root) {n : Nat} (hn : f.live n = true) :
    Below f root n := by
  induction n using Nat.strong_induction_on with
  | _ n ih =>
    cases hp : parentOf f n with
    | none =>
      obtain rfl := (h.rooted hn).mp hp
      exact .refl
    | some p =>
      have hchild := h.parent_child hp
      exact (ih p (h.older hp) (live_of_child hchild)).tail hchild

theorem WellFormed.parent_ne_self (h : WellFormed f root) (hp : parentOf f n = some p) : p ≠ n :=
  Nat.ne_of_lt (h.older hp)

theorem parentOf_unlink {m : Nat} (hm : m ≠ n) :
    parentOf (unlink f n) m = parentOf f m := by
  by_cases hp : parentOf f n = some m
  · cases hg : f.get m with
    | none => simp [parentOf, get_unlink_parent hp hm, hg]
    | some c => simp [parentOf, get_unlink_parent hp hm, hg]
  · simp [parentOf, get_unlink_of_ne hm hp]

theorem Linked.childrenOf_unlink (h : Linked f) {m : Nat} (hm : m ≠ n) :
    childrenOf (unlink f n) m = (childrenOf f m).erase n := by
  by_cases hp : parentOf f n = some m
  · cases hg : f.get m with
    | none => simp [childrenOf, get_unlink_parent hp hm, hg]
    | some c => simp [childrenOf, get_unlink_parent hp hm, hg]
  · have hnot : n ∉ childrenOf f m := fun hin => hp (h.child_parent hin).2
    rw [List.erase_of_not_mem hnot]
    simp [childrenOf, get_unlink_of_ne hm hp]

theorem WellFormed.childrenOf_unlink (h : WellFormed f root) {m : Nat} (hm : m ≠ n) :
    childrenOf (unlink f n) m = (childrenOf f m).erase n := h.linked.childrenOf_unlink hm

theorem live_unlink {m : Nat} : (unlink f n).live m = true ↔ m ≠ n ∧ f.live m = true := by
  by_cases hm : m = n
  · subst hm
    simp [Heap.live, get_unlink_self]
  · by_cases hp : parentOf f n = some m
    · simp [Heap.live, get_unlink_parent hp hm, hm]
    · simp [Heap.live, get_unlink_of_ne hm hp, hm]

theorem valAt_unlink {m : Nat} : valAt (unlink f n) m = if m = n then none else valAt f m := by
  by_cases hm : m = n
  · subst hm
    simp [valAt, get_unlink_self]
  · by_cases hp : parentOf f n = some m
    · cases hg : f.get m <;> simp [valAt, get_unlink_parent hp hm, hg, hm]
    · simp [valAt, get_unlink_of_ne hm hp, hm]

theorem parentOf_unlink_self (f : Forest β) (n : Nat) : parentOf (unlink f n) n = none := by
  simp [parentOf, get_unlink_self]

theorem childrenOf_unlink_self (f : Forest β) (n : Nat) : childrenOf (unlink f n) n = [] := by
  simp [childrenOf, get_unlink_self]

theorem Linked.unlink (h : Linked f) (n : Nat) : Linked (unlink f n) where
  child_parent := by
    intro m k hk
    by_cases hm : m = n
    · subst hm
      simp [childrenOf_unlink_self] at hk
    · rw [h.childrenOf_unlink hm] at hk
      obtain ⟨hkn, hk⟩ := (h.nodup m).mem_erase_iff.mp hk
      obtain ⟨hl, hpar⟩ := h.child_parent hk
      exact ⟨live_unlink.mpr ⟨hkn, hl⟩, by rw [parentOf_unlink hkn, hpar]⟩
  nodup := by
    intro m
    by_cases hm : m = n
    · subst hm
      simp [childrenOf_unlink_self]
    · rw [h.childrenOf_unlink hm]
      exact (h.nodup m).erase n
  older := by
    intro m k hk
    have hkn : k ≠ n := by
      rintro rfl
      simp [parentOf_unlink_self] at hk
    rw [parentOf_unlink hkn] at hk
    exact h.older hk

theorem WellFormed.unlink (h : WellFormed f root) (hleaf : childrenOf f n = []) (hn : n ≠ root) :
    WellFormed (unlink f n) root where
  root_live := live_unlink.mpr ⟨hn.symm, h.root_live⟩
  rooted := by
    intro m hm
    obtain ⟨hne, hl⟩ := live_unlink.mp hm
    rw [parentOf_unlink hne]
    exact h.rooted hl
  child_parent := (h.linked.unlink n).child_parent
  parent_child := by
    intro m k hk
    have hkn : k ≠ n := by
      rintro rfl
      simp [parentOf_unlink_self] at hk
    rw [parentOf_unlink hkn] at hk
    have hin := h.parent_child hk
    have hmn : m ≠ n := by
      rintro rfl
      simp [hleaf] at hin
    rw [h.childrenOf_unlink hmn]
    exact (h.nodup m).mem_erase_iff.mpr ⟨hkn, hin⟩
  nodup := (h.linked.unlink n).nodup
  older := (h.linked.unlink n).older

def single (v : β) : Forest β := Heap.empty.alloc ⟨v, none, []⟩

theorem get_single (v : β) (n : Nat) :
    (single v).get n = if n = 0 then some ⟨v, none, []⟩ else none := by
  rw [single, Heap.get_alloc, Heap.get_empty]
  rfl

theorem valAt_single (v : β) (n : Nat) : valAt (single v) n = if n = 0 then some v else none := by
  by_cases hn : n = 0 <;> simp [valAt, get_single, hn]

theorem childrenOf_single (v : β) (n : Nat) : childrenOf (single v) n = [] := by
  by_cases hn : n = 0 <;> simp [childrenOf, get_single, hn]

theorem parentOf_single (v : β) (n : Nat) : parentOf (single v) n = none := by
  by_cases hn : n = 0 <;> simp [parentOf, get_single, hn]

theorem wellFormed_single (v : β) : WellFormed (single v) 0 := by
  refine ⟨by simp [Heap.live, get_single], ?_, ?_, ?_, ?_, ?_⟩
  · intro n hn
    by_cases h0 : n = 0 <;> simp [Heap.live, get_single, parentOf_single, h0] at hn ⊢
  · intro n m hm
    simp [childrenOf_single] at hm
  · intro n m hm
    simp [parentOf_single] at hm
  · intro n
    simp [childrenOf_single]
  · intro n m hm
    simp [parentOf_single] at hm

end WellFormed

end Forest

end ZoraVM.Foundation
