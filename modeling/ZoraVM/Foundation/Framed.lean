import ZoraVM.Foundation.NamedForest

namespace ZoraVM.Foundation.Forest

variable {β κ : Type}

structure Upward (P : Nat → Prop) (f : Forest β) : Prop where
  bound : ∀ {x}, P x → x < f.size
  parent : ∀ {x y}, P x → parentOf f x = some y → P y

structure Framed (P : Nat → Prop) (m : Nat) (f g : Forest β) : Prop where
  val : ∀ {x}, P x → valAt g x = valAt f x
  parent : ∀ {x}, P x → parentOf g x = parentOf f x
  children : ∀ {x}, P x → x ≠ m → childrenOf g x = childrenOf f x

structure KeysKept (key : β → κ) (f g : Forest β) : Prop where
  grows : f.size ≤ g.size
  keyAt : ∀ {x}, x < f.size → g.live x = true → keyAt key g x = keyAt key f x

def Above (f : Forest β) (c x : Nat) : Prop :=
  Relation.ReflTransGen (fun x y => parentOf f x = some y) c x

variable {P : Nat → Prop} {key : β → κ} {f g h : Forest β} {m n c x y : Nat} {k : κ} {ks : List κ}
  {v : β} {u : β → β}

section Frames

theorem Framed.refl (P : Nat → Prop) (m : Nat) (f : Forest β) : Framed P m f f :=
  ⟨fun _ => rfl, fun _ => rfl, fun _ _ => rfl⟩

theorem Framed.trans (hfg : Framed P m f g) (hgh : Framed P m g h) : Framed P m f h :=
  ⟨fun hx => (hgh.val hx).trans (hfg.val hx), fun hx => (hgh.parent hx).trans (hfg.parent hx),
    fun hx hne => (hgh.children hx hne).trans (hfg.children hx hne)⟩

theorem Framed.outside (hfg : Framed P n f g) (hn : ¬ P n) (m : Nat) : Framed P m f g := by
  refine ⟨hfg.val, hfg.parent, fun {x} hx _ => hfg.children hx ?_⟩
  rintro rfl
  exact hn hx

theorem Upward.framed (hup : Upward P f) (hfg : Framed P m f g) (hgrows : f.size ≤ g.size) :
    Upward P g := by
  refine ⟨fun hx => Nat.lt_of_lt_of_le (hup.bound hx) hgrows, fun hx hy => ?_⟩
  rw [hfg.parent hx] at hy
  exact hup.parent hx hy

theorem framed_link (hup : Upward P f) (hm : f.live m = true) (v : β) :
    Framed P m f (link f m v) := by
  have hold : ∀ {x}, P x → x ≠ f.size := fun hx => Nat.ne_of_lt (hup.bound hx)
  refine ⟨fun {x} hx => ?_, fun {x} hx => ?_, fun {x} hx hne => ?_⟩
  · rw [valAt_link hm, if_neg (hold hx)]
  · rw [parentOf_link hm, if_neg (hold hx)]
  · rw [childrenOf_link hm, if_neg hne]

theorem framed_unlink (hx : ¬ P x) (hparent : parentOf f x = some m) :
    Framed P m f (unlink f x) := by
  have hother : ∀ {y}, P y → y ≠ x := by
    rintro y hy rfl
    exact hx hy
  refine ⟨fun {y} hy => ?_, fun {y} hy => parentOf_unlink (hother hy), fun {y} hy hne => ?_⟩
  · rw [valAt_unlink, if_neg (hother hy)]
  · have hkeep : (unlink f x).get y = f.get y := by
      refine get_unlink_of_ne (hother hy) fun heq => hne ?_
      exact Option.some.inj (heq.symm.trans hparent)
    rw [childrenOf, hkeep, childrenOf]

end Frames

section Keys

theorem live_iff_keyAt : f.live n = true ↔ ∃ k, keyAt key f n = some k := by
  cases hn : f.get n <;> simp [Heap.live, keyAt, hn]

theorem KeysKept.refl (key : β → κ) (f : Forest β) : KeysKept key f f :=
  ⟨Nat.le_refl _, fun _ _ => rfl⟩

theorem KeysKept.trans (hfg : KeysKept key f g) (hgh : KeysKept key g h) : KeysKept key f h := by
  refine ⟨Nat.le_trans hfg.grows hgh.grows, fun {x} hx hlive => ?_⟩
  have hlater := hgh.keyAt (Nat.lt_of_lt_of_le hx hfg.grows) hlive
  obtain ⟨k, hk⟩ := live_iff_keyAt.mp hlive
  have hmid : g.live x = true := live_iff_keyAt.mpr ⟨k, hlater.symm.trans hk⟩
  rw [hlater, hfg.keyAt hx hmid]

theorem keysKept_link (hm : f.live m = true) (v : β) : KeysKept key f (link f m v) := by
  refine ⟨by simp, fun {x} hx _ => ?_⟩
  rw [keyAt_link hm, if_neg (Nat.ne_of_lt hx)]

theorem keysKept_update (hu : ∀ b, key (u b) = key b) (n : Nat) : KeysKept key f (update f n u) :=
  ⟨by simp, fun {x} _ _ => keyAt_update hu x⟩

theorem keysKept_unlink (n : Nat) : KeysKept key f (unlink f n) :=
  ⟨by simp, fun _ hlive => keyAt_unlink_of_ne (live_unlink.mp hlive).1⟩

variable [DecidableEq κ]

theorem childNamed_congr (hf : Linked f) (hg : Linked g) (hkeys : KeysKept key f g)
    (hsame : childrenOf g n = childrenOf f n) (k : κ) :
    childNamed key g n k = childNamed key f n k := by
  rw [childNamed, hsame]
  refine List.find?_congr fun c hc => ?_
  rw [hkeys.keyAt (live_lt_size (hf.child_parent hc).1) (hg.child_parent (hsame ▸ hc)).1]

end Keys

section Above

theorem upward_le (hf : Linked f) (hn : f.live n = true) : Upward (· ≤ n) f :=
  ⟨fun hx => Nat.lt_of_le_of_lt hx (live_lt_size hn),
    fun hx hy => Nat.le_trans (Nat.le_of_lt (hf.older hy)) hx⟩

theorem Linked.above_le (hf : Linked f) (hx : Above f c x) : x ≤ c := by
  induction hx with
  | refl => exact Nat.le_refl _
  | tail _ hstep ih => exact Nat.le_trans (Nat.le_of_lt (hf.older hstep)) ih

theorem upward_above (hf : Linked f) (hc : f.live c = true) : Upward (Above f c) f :=
  ⟨fun hx => Nat.lt_of_le_of_lt (hf.above_le hx) (live_lt_size hc), fun hx hy => hx.tail hy⟩

theorem Linked.below_above (hf : Linked f) (hx : parentOf f x = some n)
    (hy : parentOf f y = some n) (hxy : Above f x y) : x = y := by
  rcases Relation.ReflTransGen.cases_head hxy with heq | ⟨z, hz, hrest⟩
  · exact heq
  · obtain rfl := Option.some.inj (hx.symm.trans hz)
    exact absurd (hf.older hy) (Nat.not_lt_of_le (hf.above_le hrest))

theorem Linked.above_unique (hf : Linked f) (hx : Above f c x) (hy : Above f c y)
    (hxn : parentOf f x = some n) (hyn : parentOf f y = some n) : x = y := by
  have hright : Relator.RightUnique fun x y => parentOf f x = some y :=
    fun _ _ _ hb hc => Option.some.inj (hb.symm.trans hc)
  rcases Relation.ReflTransGen.total_of_right_unique hright hx hy with hxy | hyx
  · exact hf.below_above hxn hyn hxy
  · exact (hf.below_above hyn hxn hyx).symm

variable [DecidableEq κ]

theorem Upward.of_walk (hup : Upward P f) (hf : Linked f) (hw : walk key f n ks = some c)
    (hc : P c) : P n := by
  induction ks generalizing n with
  | nil => exact Option.some.inj hw ▸ hc
  | cons k ks ih =>
    obtain ⟨x, hx, hrest⟩ := Option.bind_eq_some_iff.mp hw
    exact hup.parent (ih hrest) (hf.child_parent (childNamed_eq_some hx).1).2

theorem Framed.walk (hfg : Framed P m f g) (hup : Upward P f) (hf : Linked f) (hg : Linked g)
    (hkeys : KeysKept key f g) (hw : walk key f n ks = some c) (hc : P c) (hlt : m < n) :
    Forest.walk key g n ks = some c := by
  induction ks generalizing n with
  | nil => exact hw
  | cons k ks ih =>
    have hn : P n := hup.of_walk hf hw hc
    obtain ⟨x, hx, hrest⟩ := Option.bind_eq_some_iff.mp hw
    have holder := hf.older (hf.child_parent (childNamed_eq_some hx).1).2
    have hsame := childNamed_congr hf hg hkeys (hfg.children hn (Nat.ne_of_gt hlt)) k
    rw [Forest.walk, hsame, hx]
    exact ih hrest (Nat.lt_trans hlt holder)

end Above

end ZoraVM.Foundation.Forest
