import ZoraVM.Foundation.Forest

namespace ZoraVM.Foundation.Forest

variable {β κ : Type}

section Definitions

variable (key : β → κ)

def keyAt (f : Forest β) (n : Nat) : Option κ := (f.get n).map (fun c => key c.val)

inductive Denotes (f : Forest β) : Nat → List κ → Nat → Prop
  | here (n : Nat) : Denotes f n [] n
  | child {n c m : Nat} {k : κ} {ks : List κ} : c ∈ childrenOf f n → keyAt key f c = some k →
      Denotes f c ks m → Denotes f n (k :: ks) m

def SiblingsDistinct (f : Forest β) : Prop :=
  ∀ n, ((childrenOf f n).map (keyAt key f)).Nodup

variable [DecidableEq κ]

def childNamed (f : Forest β) (n : Nat) (k : κ) : Option Nat :=
  (childrenOf f n).find? (fun c => decide (keyAt key f c = some k))

def walk (f : Forest β) : Nat → List κ → Option Nat
  | n, [] => some n
  | n, k :: ks => (childNamed key f n k).bind (fun c => walk f c ks)

def denoted (f : Forest β) : Nat → List κ → List Nat
  | n, [] => [n]
  | n, k :: ks =>
    ((childrenOf f n).filter fun c => decide (keyAt key f c = some k)).flatMap fun c => denoted f c ks

def asks (f : Forest β) (p : Nat) (k : κ) : Nat → List κ → Bool
  | _, [] => false
  | n, k' :: ks => decide (n = p ∧ k' = k) || (childNamed key f n k').any (fun c => asks f p k c ks)

end Definitions

variable {key : β → κ} {f g : Forest β} {root n m p c : Nat} {k : κ} {ks : List κ}

section Keys

theorem keyAt_eq_some_iff : keyAt key f n = some k ↔ ∃ v, valAt f n = some v ∧ key v = k := by
  simp only [keyAt, valAt, Option.map_eq_some_iff]
  constructor
  · rintro ⟨c, hc, hk⟩
    exact ⟨c.val, ⟨c, hc, rfl⟩, hk⟩
  · rintro ⟨v, ⟨c, hc, rfl⟩, hk⟩
    exact ⟨c, hc, hk⟩

theorem SiblingsDistinct.eq_of_key (h : SiblingsDistinct key f) {a b : Nat}
    (ha : a ∈ childrenOf f n) (hb : b ∈ childrenOf f n) (hab : keyAt key f a = keyAt key f b) :
    a = b :=
  List.inj_on_of_nodup_map (h n) ha hb hab

theorem SiblingsDistinct.denotes_unique (h : SiblingsDistinct key f) {m' : Nat}
    (hm : Denotes key f n ks m) (hm' : Denotes key f n ks m') : m = m' := by
  induction hm with
  | here => cases hm'; rfl
  | child hc hk _ ih =>
    cases hm' with
    | child hc' hk' hrest =>
      obtain rfl := h.eq_of_key hc hc' (hk.trans hk'.symm)
      exact ih hrest

theorem denotes_concat : Denotes key f n (ks ++ [k]) m ↔
    ∃ q, Denotes key f n ks q ∧ m ∈ childrenOf f q ∧ keyAt key f m = some k := by
  induction ks generalizing n with
  | nil =>
    constructor
    · rintro (_ | ⟨hc, hk, hrest⟩)
      cases hrest
      exact ⟨n, .here n, hc, hk⟩
    · rintro ⟨q, hq, hm, hk⟩
      cases hq
      exact .child hm hk (.here m)
  | cons k' ks ih =>
    constructor
    · rintro (_ | ⟨hc, hk', hrest⟩)
      obtain ⟨q, hq, hm⟩ := ih.mp hrest
      exact ⟨q, .child hc hk' hq, hm⟩
    · rintro ⟨q, _ | ⟨hc, hk', hq⟩, hm⟩
      exact .child hc hk' (ih.mpr ⟨q, hq, hm⟩)

theorem denotes_append {ks' : List κ} : Denotes key f n (ks ++ ks') m ↔
    ∃ q, Denotes key f n ks q ∧ Denotes key f q ks' m := by
  induction ks generalizing n with
  | nil =>
    constructor
    · exact fun hd => ⟨n, .here n, hd⟩
    · rintro ⟨q, ⟨⟩, hd⟩
      exact hd
  | cons k ks ih =>
    constructor
    · rintro (_ | ⟨hc, hk, hrest⟩)
      obtain ⟨q, hq, hm⟩ := ih.mp hrest
      exact ⟨q, .child hc hk hq, hm⟩
    · rintro ⟨q, _ | ⟨hc, hk, hq⟩, hm⟩
      exact .child hc hk (ih.mpr ⟨q, hq, hm⟩)

theorem Denotes.live (h : WellFormed f root) (hn : f.live n = true) (hd : Denotes key f n ks m) :
    f.live m = true := by
  induction hd with
  | here => exact hn
  | child hc _ _ ih => exact ih (h.child_parent hc).1

theorem denotes_nil : Denotes key f n [] m ↔ m = n := by
  constructor
  · rintro ⟨⟩
    rfl
  · rintro rfl
    exact .here m

theorem WellFormed.path_unique (h : WellFormed f root) {ks' : List κ}
    (hd : Denotes key f root ks m) (hd' : Denotes key f root ks' m) : ks = ks' := by
  have hroot : ∀ {pre k}, ¬ Denotes key f root (pre ++ [k]) root := by
    intro pre k hd
    obtain ⟨p, _, hmem, _⟩ := denotes_concat.mp hd
    have hparent := (h.child_parent hmem).2
    rw [(h.rooted h.root_live).mpr rfl] at hparent
    cases hparent
  induction ks using List.reverseRecOn generalizing m ks' with
  | nil =>
    obtain rfl := denotes_nil.mp hd
    obtain rfl | ⟨pre, k, rfl⟩ := List.eq_nil_or_concat ks'
    · rfl
    · rw [List.concat_eq_append] at hd'
      exact absurd hd' hroot
  | append_singleton pre k ih =>
    obtain rfl | ⟨pre', k', rfl⟩ := List.eq_nil_or_concat ks'
    · obtain rfl := denotes_nil.mp hd'
      exact absurd hd hroot
    · rw [List.concat_eq_append] at hd' ⊢
      obtain ⟨p, hp, hmem, hkey⟩ := denotes_concat.mp hd
      obtain ⟨p', hp', hmem', hkey'⟩ := denotes_concat.mp hd'
      obtain rfl := Option.some.inj ((h.child_parent hmem).2.symm.trans (h.child_parent hmem').2)
      obtain rfl := Option.some.inj (hkey.symm.trans hkey')
      rw [ih hp hp']

variable {v : β} {u : β → β}

theorem keyAt_link (hp : f.live p = true) (m : Nat) :
    keyAt key (link f p v) m = if m = f.size then some (key v) else keyAt key f m := by
  obtain ⟨c, hc⟩ := Option.isSome_iff_exists.mp hp
  have hlt := Heap.lt_size_of_get hc
  by_cases hm : m = f.size
  · subst hm
    simp [keyAt, get_link_fresh hlt]
  · by_cases hmp : m = p
    · subst hmp
      simp [keyAt, get_link_parent hc, hc, hm]
    · simp [keyAt, get_link_of_ne hm hmp, hm]

theorem keyAt_link_of_live (hp : f.live p = true) (hm : f.live m = true) :
    keyAt key (link f p v) m = keyAt key f m := by
  rw [keyAt_link hp, if_neg (Nat.ne_of_lt (live_lt_size hm))]

theorem keyAt_unlink_of_ne (hm : m ≠ n) : keyAt key (unlink f n) m = keyAt key f m := by
  by_cases hp : parentOf f n = some m
  · cases hg : f.get m <;> simp [keyAt, get_unlink_parent hp hm, hg]
  · simp [keyAt, get_unlink_of_ne hm hp]

theorem keyAt_update (hu : ∀ b, key (u b) = key b) (m : Nat) :
    keyAt key (update f n u) m = keyAt key f m := by
  by_cases hm : m = n
  · subst hm
    cases hg : f.get m <;> simp [keyAt, get_update, hg, hu]
  · simp [keyAt, get_update_of_ne u hm]

theorem denotes_update (hu : ∀ b, key (u b) = key b) :
    Denotes key (update f p u) n ks m ↔ Denotes key f n ks m := by
  induction ks using List.reverseRecOn generalizing m with
  | nil => rw [denotes_nil, denotes_nil]
  | append_singleton ks k ih =>
    simp only [denotes_concat, ih, childrenOf_update, keyAt_update hu]

theorem WellFormed.denotes_link (h : WellFormed f root) (hp : f.live p = true) :
    Denotes key (Forest.link f p v) root ks m ↔ Denotes key f root ks m ∨
      (m = f.size ∧ ∃ pre, ks = pre ++ [key v] ∧ Denotes key f root pre p) := by
  have hfresh : ∀ {q}, f.live q = true → q ≠ f.size := fun hq => Nat.ne_of_lt (live_lt_size hq)
  induction ks using List.reverseRecOn generalizing m with
  | nil => simp [denotes_nil]
  | append_singleton ks k ih =>
    simp only [denotes_concat, ih, childrenOf_link hp, keyAt_link hp]
    constructor
    · rintro ⟨q, hq | ⟨rfl, _⟩, hm, hk⟩
      · by_cases hqp : q = p
        · subst hqp
          rw [if_pos rfl, List.mem_cons] at hm
          rcases hm with rfl | hm
          · rw [if_pos rfl] at hk
            exact .inr ⟨rfl, ks, by rw [Option.some.inj hk], hq⟩
          · rw [if_neg (hfresh (h.child_parent hm).1)] at hk
            exact .inl ⟨q, hq, hm, hk⟩
        · rw [if_neg hqp] at hm
          rw [if_neg (hfresh (h.child_parent hm).1)] at hk
          exact .inl ⟨q, hq, hm, hk⟩
      · rw [if_neg (hfresh hp).symm, childrenOf_size] at hm
        cases hm
    · rintro (⟨q, hq, hm, hk⟩ | ⟨rfl, pre, hpath, hq⟩)
      · refine ⟨q, .inl hq, ?_, ?_⟩
        · split
          · next hqp => exact List.mem_cons_of_mem _ (hqp ▸ hm)
          · exact hm
        · rw [if_neg (hfresh (h.child_parent hm).1), hk]
      · obtain ⟨rfl, hkey⟩ := List.append_inj' hpath rfl
        refine ⟨p, .inl hq, ?_, ?_⟩
        · rw [if_pos rfl]
          exact List.mem_cons_self
        · rw [if_pos rfl, List.singleton_inj.mp hkey]

theorem SiblingsDistinct.unlink (h : SiblingsDistinct key f) (hwf : WellFormed f root) (n : Nat) :
    SiblingsDistinct key (unlink f n) := by
  intro m
  by_cases hm : m = n
  · subst hm
    simp [childrenOf_unlink_self]
  · rw [hwf.childrenOf_unlink hm]
    have hold : ((childrenOf f m).erase n).map (keyAt key (Forest.unlink f n)) =
        ((childrenOf f m).erase n).map (keyAt key f) := by
      refine List.map_congr_left fun c hc => keyAt_unlink_of_ne ?_
      exact ((hwf.nodup m).mem_erase_iff.mp hc).1
    rw [hold]
    exact (h m).sublist (List.erase_sublist.map _)

theorem SiblingsDistinct.update (h : SiblingsDistinct key f) (hu : ∀ b, key (u b) = key b)
    (n : Nat) : SiblingsDistinct key (update f n u) := by
  intro m
  rw [childrenOf_update, List.map_congr_left fun c _ => keyAt_update (n := n) hu c]
  exact h m

end Keys

section Walk

variable [DecidableEq κ]

theorem childNamed_eq_some (h : childNamed key f n k = some c) :
    c ∈ childrenOf f n ∧ keyAt key f c = some k :=
  ⟨List.mem_of_find?_eq_some h, by simpa using List.find?_some h⟩

theorem childNamed_eq_none :
    childNamed key f n k = none ↔ ∀ c ∈ childrenOf f n, keyAt key f c ≠ some k := by
  simp [childNamed, List.find?_eq_none]

theorem childNamed_of_leaf (h : childrenOf f n = []) : childNamed key f n k = none := by
  simp [childNamed, h]

theorem walk_append (f : Forest β) (n : Nat) (ks ks' : List κ) :
    walk key f n (ks ++ ks') = (walk key f n ks).bind (fun m => walk key f m ks') := by
  induction ks generalizing n with
  | nil => simp [walk]
  | cons k ks ih =>
    simp only [List.cons_append, walk]
    cases childNamed key f n k with
    | none => rfl
    | some c => simp [ih]

theorem walk_concat (f : Forest β) (n : Nat) (ks : List κ) (k : κ) :
    walk key f n (ks ++ [k]) = (walk key f n ks).bind (fun m => childNamed key f m k) := by
  rw [walk_append]
  congr 1
  funext m
  simp only [walk]
  cases childNamed key f m k <;> rfl

theorem walk_congr
    (h : ∀ pre k post, ks = pre ++ k :: post → ∀ m, walk key f n pre = some m →
      childNamed key g m k = childNamed key f m k) :
    walk key g n ks = walk key f n ks := by
  induction ks generalizing n with
  | nil => rfl
  | cons k ks ih =>
    have hk := h [] k ks rfl n rfl
    simp only [walk, hk]
    cases hc : childNamed key f n k with
    | none => rfl
    | some c =>
      refine ih fun pre k' post hks m hm => h (k :: pre) k' post (by simp [hks]) m ?_
      simpa [walk, hc] using hm

theorem Denotes.of_walk (h : walk key f n ks = some m) : Denotes key f n ks m := by
  induction ks generalizing n with
  | nil =>
    obtain rfl := Option.some.inj h
    exact .here n
  | cons k ks ih =>
    obtain ⟨c, hc, hrest⟩ := Option.bind_eq_some_iff.mp h
    obtain ⟨hmem, hkey⟩ := childNamed_eq_some hc
    exact .child hmem hkey (ih hrest)

theorem SiblingsDistinct.walk_iff (h : SiblingsDistinct key f) :
    walk key f n ks = some m ↔ Denotes key f n ks m := by
  refine ⟨.of_walk, fun hd => ?_⟩
  induction hd with
  | here => rfl
  | @child n c m k ks hc hk _ ih =>
    cases hfound : childNamed key f n k with
    | none => exact absurd hk (childNamed_eq_none.mp hfound c hc)
    | some c' =>
      obtain ⟨hc', hk'⟩ := childNamed_eq_some hfound
      obtain rfl := h.eq_of_key hc hc' (hk.trans hk'.symm)
      rw [walk, hfound]
      exact ih

theorem mem_denoted : m ∈ denoted key f n ks ↔ Denotes key f n ks m := by
  induction ks generalizing n with
  | nil => simp [denoted, denotes_nil]
  | cons k ks ih =>
    simp only [denoted, List.mem_flatMap, List.mem_filter, decide_eq_true_eq, ih]
    constructor
    · rintro ⟨c, ⟨hc, hk⟩, hrest⟩
      exact .child hc hk hrest
    · rintro (_ | ⟨hc, hk, hrest⟩)
      exact ⟨_, ⟨hc, hk⟩, hrest⟩

variable {v : β} {u : β → β}

theorem Linked.childNamed_link (h : Linked f) (hp : f.live p = true) (m : Nat) (k : κ) :
    childNamed key (Forest.link f p v) m k =
      if m = p ∧ key v = k then some f.size else childNamed key f m k := by
  have hold : ∀ n, (childrenOf f n).find?
      (fun c => decide (keyAt key (Forest.link f p v) c = some k)) = childNamed key f n k := by
    intro n
    refine List.find?_congr fun c hc => ?_
    rw [keyAt_link_of_live hp (h.child_parent hc).1]
  have hfresh : keyAt key (Forest.link f p v) f.size = some (key v) := by simp [keyAt_link hp]
  rw [childNamed, childrenOf_link hp]
  by_cases hm : m = p
  · subst hm
    rw [if_pos rfl, List.find?_cons, hfresh, hold]
    by_cases hk : key v = k <;> simp [hk]
  · simp [hm, hold]

theorem childNamed_link (h : WellFormed f root) (hp : f.live p = true) (m : Nat) (k : κ) :
    childNamed key (link f p v) m k =
      if m = p ∧ key v = k then some f.size else childNamed key f m k :=
  h.linked.childNamed_link hp m k

theorem SiblingsDistinct.link (h : SiblingsDistinct key f) (hwf : WellFormed f root)
    (hp : f.live p = true) (hfree : childNamed key f p (key v) = none) :
    SiblingsDistinct key (link f p v) := by
  have hold : ∀ n, (childrenOf f n).map (keyAt key (Forest.link f p v)) =
      (childrenOf f n).map (keyAt key f) := fun n =>
    List.map_congr_left fun c hc => keyAt_link_of_live hp (hwf.child_parent hc).1
  intro m
  rw [childrenOf_link hp]
  by_cases hm : m = p
  · subst hm
    rw [if_pos rfl, List.map_cons, hold, List.nodup_cons]
    refine ⟨?_, h m⟩
    rw [keyAt_link hp, if_pos rfl]
    intro hin
    obtain ⟨c, hc, hkc⟩ := List.mem_map.mp hin
    exact childNamed_eq_none.mp hfree c hc hkc
  · rw [if_neg hm, hold]
    exact h m

theorem find?_erase_of_ne {α : Type} [DecidableEq α] {P : α → Bool} {l : List α} {a : α}
    (h : l.find? P ≠ some a) : (l.erase a).find? P = l.find? P := by
  induction l with
  | nil => rfl
  | cons b l ih =>
    by_cases hba : b = a
    · subst hba
      rw [List.erase_cons_head]
      by_cases hb : P b = true
      · simp [hb] at h
      · rw [List.find?_cons_of_neg hb]
    · rw [List.erase_cons_tail (by simp [hba])]
      by_cases hb : P b = true
      · simp [hb]
      · rw [List.find?_cons_of_neg hb] at h
        rw [List.find?_cons_of_neg hb, List.find?_cons_of_neg hb, ih h]

theorem Linked.childNamed_unlink (h : Linked f) (hm : m ≠ n)
    (hc : childNamed key f m k ≠ some n) :
    childNamed key (Forest.unlink f n) m k = childNamed key f m k := by
  rw [childNamed, h.childrenOf_unlink hm]
  have hkeep : ((childrenOf f m).erase n).find?
      (fun c => decide (keyAt key (Forest.unlink f n) c = some k)) =
      ((childrenOf f m).erase n).find? (fun c => decide (keyAt key f c = some k)) := by
    refine List.find?_congr fun c hc' => ?_
    rw [keyAt_unlink_of_ne ((h.nodup m).mem_erase_iff.mp hc').1]
  rw [hkeep]
  exact find?_erase_of_ne hc

theorem childNamed_unlink (hwf : WellFormed f root) (hm : m ≠ n)
    (hc : childNamed key f m k ≠ some n) :
    childNamed key (unlink f n) m k = childNamed key f m k := hwf.linked.childNamed_unlink hm hc

theorem childNamed_update (hu : ∀ b, key (u b) = key b) (m : Nat) (k : κ) :
    childNamed key (update f n u) m k = childNamed key f m k := by
  simp [childNamed, childrenOf_update, keyAt_update hu]

theorem walk_update (hu : ∀ b, key (u b) = key b) (m : Nat) (ks : List κ) :
    walk key (update f n u) m ks = walk key f m ks :=
  walk_congr fun _ _ _ _ m' _ => childNamed_update hu m' _

theorem WellFormed.live_walk (h : WellFormed f root) (hn : f.live n = true)
    (hw : walk key f n ks = some m) : f.live m = true := by
  induction ks generalizing n with
  | nil => exact Option.some.inj hw ▸ hn
  | cons k ks ih =>
    obtain ⟨c, hc, hrest⟩ := Option.bind_eq_some_iff.mp hw
    exact ih (h.child_parent (childNamed_eq_some hc).1).1 hrest

theorem WellFormed.walk_le (h : WellFormed f root) (hw : walk key f n ks = some m) : n ≤ m := by
  induction ks generalizing n with
  | nil => exact Nat.le_of_eq (Option.some.inj hw)
  | cons k ks ih =>
    obtain ⟨c, hc, hrest⟩ := Option.bind_eq_some_iff.mp hw
    have hlt := h.older (h.child_parent (childNamed_eq_some hc).1).2
    exact Nat.le_of_lt (Nat.lt_of_lt_of_le hlt (ih hrest))

theorem WellFormed.walk_lt (h : WellFormed f root) (hw : walk key f n (k :: ks) = some m) :
    n < m := by
  obtain ⟨c, hc, hrest⟩ := Option.bind_eq_some_iff.mp hw
  exact Nat.lt_of_lt_of_le (h.older (h.child_parent (childNamed_eq_some hc).1).2)
    (h.walk_le hrest)

theorem WellFormed.walk_length_le (h : WellFormed f root) (hw : walk key f n ks = some m) :
    n + ks.length ≤ m := by
  induction ks generalizing n with
  | nil => exact Nat.le_of_eq (Option.some.inj hw)
  | cons k ks ih =>
    obtain ⟨c, hc, hrest⟩ := Option.bind_eq_some_iff.mp hw
    have hlt := h.older (h.child_parent (childNamed_eq_some hc).1).2
    have hle := ih hrest
    rw [List.length_cons]
    omega

theorem WellFormed.key_of_walk (h : WellFormed f root) (hw : walk key f n ks = some m)
    (hk : k ∈ ks) : ∃ c, n < c ∧ keyAt key f c = some k := by
  induction ks generalizing n with
  | nil => cases hk
  | cons k' ks ih =>
    obtain ⟨c, hc, hrest⟩ := Option.bind_eq_some_iff.mp hw
    obtain ⟨hmem, hkey⟩ := childNamed_eq_some hc
    have hlt := h.older (h.child_parent hmem).2
    rcases List.mem_cons.mp hk with rfl | hk
    · exact ⟨c, hlt, hkey⟩
    · obtain ⟨d, hd, hkd⟩ := ih hrest hk
      exact ⟨d, Nat.lt_trans hlt hd, hkd⟩

theorem WellFormed.walk_link (h : WellFormed f root) (hp : f.live p = true)
    (hw : walk key f n ks = some p) : walk key (Forest.link f p v) n ks = some p := by
  rw [walk_congr (f := f) ?_, hw]
  intro pre k post hks m hm
  rw [childNamed_link h hp, if_neg]
  rintro ⟨rfl, _⟩
  have hrest : walk key f m (k :: post) = some m := by
    simpa [hks, walk_append, hm] using hw
  exact absurd (h.walk_lt hrest) (Nat.lt_irrefl m)

theorem childNamed_of_asks (hw : walk key f n ks = some m) (h : asks key f p k n ks = true) :
    ∃ c, childNamed key f p k = some c := by
  induction ks generalizing n with
  | nil => cases h
  | cons k' ks ih =>
    obtain ⟨c, hc, hrest⟩ := Option.bind_eq_some_iff.mp hw
    simp only [asks, hc, Option.any_some, Bool.or_eq_true, decide_eq_true_eq] at h
    rcases h with ⟨rfl, rfl⟩ | h
    · exact ⟨c, hc⟩
    · exact ih hrest h

theorem WellFormed.walk_link_of_not_asks (h : WellFormed f root) (hp : f.live p = true)
    (hasks : asks key f p (key v) n ks = false) :
    walk key (Forest.link f p v) n ks = walk key f n ks := by
  induction ks generalizing n with
  | nil => rfl
  | cons k' ks ih =>
    simp only [asks, Bool.or_eq_false_iff, decide_eq_false_iff_not] at hasks
    have hne : ¬ (n = p ∧ key v = k') := fun hnp => hasks.1 ⟨hnp.1, hnp.2.symm⟩
    simp only [walk, childNamed_link h hp, if_neg hne]
    cases hc : childNamed key f n k' with
    | none => rfl
    | some c => exact ih (by simpa [hc] using hasks.2)

theorem WellFormed.walk_link_of_none (h : WellFormed f root) (hp : f.live p = true)
    (hw : walk key f n ks = none) :
    walk key (Forest.link f p v) n ks = none ∨ walk key (Forest.link f p v) n ks = some f.size := by
  induction ks generalizing n with
  | nil => cases hw
  | cons k' ks ih =>
    simp only [walk, childNamed_link h hp]
    by_cases hhere : n = p ∧ key v = k'
    · simp only [if_pos hhere, Option.bind_some]
      cases ks with
      | nil => exact .inr rfl
      | cons k ks =>
        have hne : f.size ≠ p := Nat.ne_of_gt (live_lt_size hp)
        have hleaf : childNamed key f f.size k = none := childNamed_of_leaf (childrenOf_size f)
        exact .inl (by simp [walk, childNamed_link h hp, hne, hleaf])
    · rw [if_neg hhere]
      cases hc : childNamed key f n k' with
      | none => exact .inl rfl
      | some c =>
        rw [walk, hc] at hw
        exact ih hw

theorem WellFormed.asks_of_walk (h : WellFormed f root) (hw : walk key f n ks = some m)
    (hne : ks ≠ []) (hp : parentOf f m = some p) (hk : keyAt key f m = some k) :
    asks key f p k n ks = true := by
  induction ks generalizing n with
  | nil => exact absurd rfl hne
  | cons k' ks ih =>
    obtain ⟨c, hc, hrest⟩ := Option.bind_eq_some_iff.mp hw
    simp only [asks, hc, Option.any_some, Bool.or_eq_true, decide_eq_true_eq]
    cases ks with
    | nil =>
      obtain rfl : c = m := Option.some.inj hrest
      obtain ⟨hmem, hkey⟩ := childNamed_eq_some hc
      have hparent := (h.child_parent hmem).2
      exact .inl ⟨Option.some.inj (hparent.symm.trans hp), Option.some.inj (hkey.symm.trans hk)⟩
    | cons k'' ks => exact .inr (ih hrest (List.cons_ne_nil k'' ks))

theorem eq_of_asks_leaf (hw : walk key f n ks = some m) (hasks : asks key f p k n ks = true)
    (hk : childNamed key f p k = some c) (hleaf : childrenOf f c = []) : c = m := by
  induction ks generalizing n with
  | nil => cases hasks
  | cons k' ks ih =>
    obtain ⟨d, hd, hrest⟩ := Option.bind_eq_some_iff.mp hw
    simp only [asks, hd, Option.any_some, Bool.or_eq_true, decide_eq_true_eq] at hasks
    rcases hasks with ⟨rfl, rfl⟩ | hasks
    · obtain rfl := Option.some.inj (hk.symm.trans hd)
      cases ks with
      | nil => exact Option.some.inj hrest
      | cons k'' ks =>
        rw [walk, childNamed_of_leaf hleaf] at hrest
        cases hrest
    · exact ih hrest hasks

theorem WellFormed.walk_link_of_asks (h : WellFormed f root) (hp : f.live p = true)
    (hw : walk key f n ks = some m) (hasks : asks key f p (key v) n ks = true) :
    walk key (Forest.link f p v) n ks = none ∨
      (walk key (Forest.link f p v) n ks = some f.size ∧ childNamed key f p (key v) = some m) := by
  induction ks generalizing n with
  | nil => cases hasks
  | cons k' ks ih =>
    obtain ⟨c, hc, hrest⟩ := Option.bind_eq_some_iff.mp hw
    by_cases hhere : n = p ∧ key v = k'
    · obtain ⟨rfl, rfl⟩ := hhere
      simp only [walk, childNamed_link h hp, and_self, if_true, Option.bind_some]
      cases ks with
      | nil => exact .inr ⟨rfl, hrest ▸ hc⟩
      | cons k ks =>
        have hne : f.size ≠ n := Nat.ne_of_gt (live_lt_size hp)
        have hleaf : childNamed key f f.size k = none := childNamed_of_leaf (childrenOf_size f)
        exact .inl (by simp [walk, childNamed_link h hp, hne, hleaf])
    · have hthere : asks key f p (key v) c ks = true := by
        simp only [asks, hc, Option.any_some, Bool.or_eq_true, decide_eq_true_eq] at hasks
        exact hasks.resolve_left fun hnp => hhere ⟨hnp.1, hnp.2.symm⟩
      simp only [walk, childNamed_link h hp, if_neg hhere, hc, Option.bind_some]
      exact ih hrest hthere

theorem WellFormed.walk_unlink {leaf : Nat} (h : WellFormed f root) (hleaf : childrenOf f leaf = [])
    (hw : walk key f n ks = some m) (hm : m ≠ leaf) :
    walk key (Forest.unlink f leaf) n ks = some m := by
  induction ks generalizing n with
  | nil => exact hw
  | cons k ks ih =>
    obtain ⟨c, hc, hrest⟩ := Option.bind_eq_some_iff.mp hw
    have hinner : ∀ {a b k'}, childNamed key f a k' = some b → a ≠ leaf := by
      rintro a b k' hab rfl
      rw [childNamed_of_leaf hleaf] at hab
      cases hab
    have hchild : c ≠ leaf := by
      cases ks with
      | nil => exact Option.some.inj hrest ▸ hm
      | cons k' ks =>
        obtain ⟨d, hd, _⟩ := Option.bind_eq_some_iff.mp hrest
        exact hinner hd
    rw [walk, childNamed_unlink h (hinner hc) (fun he => hchild (Option.some.inj (hc.symm.trans he))),
      hc]
    exact ih hrest

theorem WellFormed.walk_unlink_self (h : WellFormed f root) (hleaf : childrenOf f m = [])
    (hw : walk key f root ks = some m) (hp : parentOf f m = some p) :
    walk key (Forest.unlink f m) root ks = none ↔
      ∀ c ∈ childrenOf f p, keyAt key f c = keyAt key f m → c = m := by
  have hpm : p ≠ m := h.parent_ne_self hp
  obtain rfl | ⟨pre, k, rfl⟩ := List.eq_nil_or_concat ks
  · obtain rfl := Option.some.inj hw
    rw [(h.rooted h.root_live).mpr rfl] at hp
    cases hp
  · rw [List.concat_eq_append, walk_concat] at hw
    obtain ⟨p', hpre, hc⟩ := Option.bind_eq_some_iff.mp hw
    obtain ⟨hmem, hkey⟩ := childNamed_eq_some hc
    obtain rfl : p' = p := Option.some.inj ((h.child_parent hmem).2.symm.trans hp)
    rw [List.concat_eq_append, walk_concat, h.walk_unlink hleaf hpre hpm, Option.bind_some,
      childNamed_eq_none, h.childrenOf_unlink hpm, hkey]
    constructor
    · intro hnone c hc hck
      by_contra hcm
      refine hnone c ((h.nodup p').mem_erase_iff.mpr ⟨hcm, hc⟩) ?_
      rw [keyAt_unlink_of_ne hcm, hck]
    · intro honly c hc hck
      obtain ⟨hcm, hc⟩ := (h.nodup p').mem_erase_iff.mp hc
      rw [keyAt_unlink_of_ne hcm] at hck
      exact hcm (honly c hc hck)

theorem WellFormed.walk_unique (h : WellFormed f root) {ks' : List κ}
    (hw : walk key f root ks = some m) (hw' : walk key f root ks' = some m) : ks = ks' :=
  h.path_unique (.of_walk hw) (.of_walk hw')

theorem WellFormed.walk_link_eq (h : WellFormed f root) (hp : f.live p = true) {path : List κ}
    (hw : walk key f root path = some p) (hfree : childNamed key f p (key v) = none)
    (ks : List κ) :
    walk key (Forest.link f p v) root ks =
      if ks = path ++ [key v] then some f.size else walk key f root ks := by
  induction ks using List.reverseRecOn with
  | nil => rw [if_neg (by simp)]; rfl
  | append_singleton pre k ih =>
    rw [walk_concat, ih, walk_concat]
    split
    · next hpre =>
      have hne : f.size ≠ p := Nat.ne_of_gt (live_lt_size hp)
      have hlong : pre ++ [k] ≠ path ++ [key v] := by
        intro he
        have hlen := congrArg List.length he
        simp [hpre] at hlen
      have hleaf : childNamed key f f.size k = none := childNamed_of_leaf (childrenOf_size f)
      rw [if_neg hlong, hpre, walk_concat, hw, Option.bind_some, Option.bind_some, hfree,
        childNamed_link h hp, if_neg fun hsame => hne hsame.1, hleaf]
      rfl
    · next hpre =>
      cases hq : walk key f root pre with
      | none =>
        have hother : pre ++ [k] ≠ path ++ [key v] := by
          intro he
          obtain ⟨rfl, _⟩ := List.append_inj' he rfl
          rw [hw] at hq
          cases hq
        rw [if_neg hother]
        rfl
      | some q =>
        rw [Option.bind_some, Option.bind_some, childNamed_link h hp]
        refine if_congr ⟨?_, fun he => ?_⟩ rfl rfl
        · rintro ⟨rfl, rfl⟩
          rw [h.walk_unique hq hw]
        · obtain ⟨rfl, hk⟩ := List.append_inj' he rfl
          exact ⟨Option.some.inj (hq.symm.trans hw), (List.singleton_inj.mp hk).symm⟩

theorem WellFormed.walk_unlink_eq (h : WellFormed f root) (hd : SiblingsDistinct key f)
    (hleaf : childrenOf f m = []) (hm : m ≠ root) {path : List κ}
    (hw : walk key f root path = some m) (ks : List κ) :
    walk key (Forest.unlink f m) root ks = if ks = path then none else walk key f root ks := by
  induction ks using List.reverseRecOn with
  | nil =>
    rw [if_neg]
    · rfl
    · rintro rfl
      exact hm (Option.some.inj hw).symm
  | append_singleton pre k ih =>
    rw [walk_concat, ih]
    split
    · next hpre =>
      subst hpre
      rw [if_neg (by simp), walk_concat, hw, Option.bind_some, childNamed_of_leaf hleaf]
      rfl
    · next hpre =>
      rw [walk_concat]
      cases hq : walk key f root pre with
      | none => exact (ite_self _).symm
      | some q =>
        have hqm : q ≠ m := by
          rintro rfl
          exact hpre (h.walk_unique hq hw)
        rw [Option.bind_some, Option.bind_some]
        rcases eq_or_ne (childNamed key f q k) (some m) with hc | hc
        · have hhere : walk key f root (pre ++ [k]) = some m := by
            rw [walk_concat, hq, Option.bind_some, hc]
          obtain ⟨hmem, hkey⟩ := childNamed_eq_some hc
          rw [if_pos (h.walk_unique hhere hw), childNamed_eq_none, h.childrenOf_unlink hqm]
          intro c hcm hck
          obtain ⟨hne, hcm⟩ := (h.nodup q).mem_erase_iff.mp hcm
          rw [keyAt_unlink_of_ne hne] at hck
          exact hne (hd.eq_of_key hcm hmem (hck.trans hkey.symm))
        · rw [childNamed_unlink h hqm hc, if_neg]
          intro he
          rw [← he, walk_concat, hq, Option.bind_some] at hw
          exact hc hw

end Walk

end ZoraVM.Foundation.Forest
