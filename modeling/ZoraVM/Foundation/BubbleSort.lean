import Mathlib.Data.List.Chain
import Mathlib.Data.List.Sort
import Mathlib.Tactic

namespace ZoraVM.Foundation

section Loops

variable {α : Type}

-- The first n comparisons of neighbours, of which any may be without a result.
def bubblePass (swaps : α → α → Option Bool) : Nat → List α → Option (List α)
  | n + 1, a :: b :: l => do
    if ← swaps a b then (b :: ·) <$> bubblePass swaps n (a :: l)
    else (a :: ·) <$> bubblePass swaps n (b :: l)
  | _, l => some l

def bubblePasses (swaps : α → α → Option Bool) : Nat → List α → Option (List α)
  | 0, l => some l
  | n + 1, l => bubblePass swaps (n + 1) l >>= bubblePasses swaps n

def bubbleSort (swaps : α → α → Option Bool) (l : List α) : Option (List α) :=
  bubblePasses swaps (l.length - 1) l

end Loops

section Carrying

variable {α : Type} {swaps : α → α → Option Bool} {a x : α} {l tail : List α} {n : Nat}

def bubbleUp (swaps : α → α → Option Bool) (a : α) : List α → Option (List α × α)
  | [] => some ([], a)
  | b :: l => do
    if ← swaps a b then (fun p => (b :: p.1, p.2)) <$> bubbleUp swaps a l
    else (fun p => (a :: p.1, p.2)) <$> bubbleUp swaps b l

def peel (swaps : α → α → Option Bool) : Nat → List α → Option (List α)
  | n + 1, a :: l => do
    let p ← bubbleUp swaps a l
    (p.2 :: ·) <$> peel swaps n p.1
  | _, _ => some []

def insertDown (swaps : α → α → Option Bool) : List α → α → Option (List α)
  | [], x => some [x]
  | m :: s, x => do
    if ← swaps m x then (m :: ·) <$> insertDown swaps s x
    else (x :: ·) <$> insertDown swaps s m

theorem bubblePass_eq (swaps : α → α → Option Bool) (a : α) (l tail : List α) :
    bubblePass swaps l.length (a :: l ++ tail) =
      (fun p => p.1 ++ p.2 :: tail) <$> bubbleUp swaps a l := by
  induction l generalizing a with
  | nil => rfl
  | cons b l ih =>
    have hswap := ih a
    have hkeep := ih b
    simp only [List.cons_append] at hswap hkeep
    simp only [List.length_cons, List.cons_append, bubblePass, bubbleUp, hswap, hkeep, map_bind]
    congr 1
    funext c
    cases c <;> simp [Function.comp_def]

theorem bubbleUp_length {p : List α × α} (h : bubbleUp swaps a l = some p) :
    p.1.length = l.length := by
  induction l generalizing a p with
  | nil =>
    obtain rfl := Option.some.inj h
    rfl
  | cons b l ih =>
    rw [bubbleUp, Option.bind_eq_bind, Option.bind_eq_some_iff] at h
    obtain ⟨c, -, h⟩ := h
    cases c with
    | false =>
      obtain ⟨q, hq, rfl⟩ := Option.map_eq_some_iff.mp h
      simp [ih hq]
    | true =>
      obtain ⟨q, hq, rfl⟩ := Option.map_eq_some_iff.mp h
      simp [ih hq]

theorem bubblePasses_eq (swaps : α → α → Option Bool) (a : α) (l tail : List α) :
    bubblePasses swaps l.length (a :: l ++ tail) =
      (fun s => s.reverse ++ tail) <$> peel swaps (l.length + 1) (a :: l) := by
  induction hn : l.length generalizing a l tail with
  | zero =>
    rw [List.length_eq_zero_iff.mp hn]
    rfl
  | succ n ih =>
    rw [bubblePasses, ← hn, bubblePass_eq, peel, hn]
    cases hup : bubbleUp swaps a l with
    | none => rfl
    | some p =>
      obtain ⟨rest, m⟩ := p
      have hlen : rest.length = n + 1 := by rw [← hn, bubbleUp_length hup]
      match rest, hlen with
      | b :: rest, hlen =>
        have hrest := ih b rest (m :: tail) (Nat.succ.inj hlen)
        simp only [Option.map_eq_map, Option.map_some, Option.bind_eq_bind, Option.bind_some]
        rw [hrest]
        simp [Function.comp_def]

theorem bubbleUp_concat (swaps : α → α → Option Bool) (a : α) (l : List α) (x : α) :
    bubbleUp swaps a (l ++ [x]) = bubbleUp swaps a l >>= fun p =>
      (fun c => if c then (p.1 ++ [x], p.2) else (p.1 ++ [p.2], x)) <$> swaps p.2 x := by
  induction l generalizing a with
  | nil =>
    cases hlast : swaps a x with
    | none => simp [bubbleUp, hlast]
    | some c => cases c <;> simp [bubbleUp, hlast]
  | cons b l ih =>
    simp only [List.cons_append, bubbleUp, ih]
    cases swaps a b with
    | none => rfl
    | some c =>
      cases c with
      | false =>
        cases bubbleUp swaps b l with
        | none => rfl
        | some p => cases hlast : swaps p.2 x with
          | none => simp [hlast]
          | some d => cases d <;> simp [hlast]
      | true =>
        cases bubbleUp swaps a l with
        | none => rfl
        | some p => cases hlast : swaps p.2 x with
          | none => simp [hlast]
          | some d => cases d <;> simp [hlast]

theorem peel_concat (swaps : α → α → Option Bool) (h : l.length ≤ n) (x : α) :
    peel swaps (n + 1) (l ++ [x]) = peel swaps n l >>= (insertDown swaps · x) := by
  induction n generalizing l x with
  | zero =>
    rw [List.length_eq_zero_iff.mp (Nat.le_zero.mp h)]
    rfl
  | succ n ih =>
    cases l with
    | nil => rfl
    | cons a l =>
      rw [List.cons_append, peel, peel, bubbleUp_concat]
      cases hup : bubbleUp swaps a l with
      | none => rfl
      | some p =>
        have hlen : p.1.length ≤ n := by
          rw [bubbleUp_length hup]
          exact Nat.le_of_succ_le_succ h
        have hswap := ih hlen x
        have hkeep := ih hlen p.2
        cases hlast : swaps p.2 x with
        | none => cases hp : peel swaps n p.1 <;> simp [hlast, hp, insertDown]
        | some c =>
          cases c with
          | false => cases hp : peel swaps n p.1 <;> simp [hlast, hkeep, hp, insertDown]
          | true => cases hp : peel swaps n p.1 <;> simp [hlast, hswap, hp, insertDown]

theorem peel_eq (swaps : α → α → Option Bool) (h : l.length ≤ n) :
    peel swaps n l = l.foldlM (insertDown swaps) [] := by
  induction l using List.reverseRecOn generalizing n with
  | nil => cases n <;> rfl
  | append_singleton l x ih =>
    rw [List.length_append, List.length_singleton] at h
    match n, h with
    | n + 1, h =>
      have hle := Nat.le_of_succ_le_succ h
      rw [peel_concat swaps hle, ih hle, List.foldlM_append]
      simp

theorem bubbleSort_eq (swaps : α → α → Option Bool) (l : List α) :
    bubbleSort swaps l = List.reverse <$> l.foldlM (insertDown swaps) [] := by
  cases l with
  | nil => rfl
  | cons a l =>
    have hpasses := bubblePasses_eq swaps a l []
    have hpeel := peel_eq swaps (Nat.le_refl (a :: l).length)
    simp only [List.append_nil] at hpasses
    rw [List.length_cons] at hpeel
    rw [bubbleSort, List.length_cons, Nat.add_sub_cancel, hpasses, hpeel]

end Carrying

section Inserting

variable {α : Type} {swaps : α → α → Option Bool} {R S : α → α → Prop} {x : α} {s s' : List α}

def Compares (swaps : α → α → Option Bool) (R S : α → α → Prop) : Prop :=
  ∀ a b c, swaps a b = some c ↔ S a b ∧ (c = true ↔ ¬ R a b)

theorem Compares.keeps (h : Compares swaps R S) {a b : α} (hs : S a b) (hr : R a b) :
    swaps a b = some false := (h a b false).mpr ⟨hs, by simp [hr]⟩

theorem Compares.exchanges (h : Compares swaps R S) {a b : α} (hs : S a b) (hr : ¬ R a b) :
    swaps a b = some true := (h a b true).mpr ⟨hs, by simp [hr]⟩

theorem Compares.safe (h : Compares swaps R S) {a b : α} {c : Bool} (hc : swaps a b = some c) :
    S a b := ((h a b c).mp hc).1

theorem Compares.undefined (h : Compares swaps R S) {a b : α} (hs : ¬ S a b) :
    swaps a b = none := by
  cases hc : swaps a b with
  | none => rfl
  | some c => exact absurd (h.safe hc) hs

theorem insertDown_cons_kept (h : Compares swaps R S) {m : α} (hr : R m x) :
    insertDown swaps (m :: s) x = some s' ↔
      S m x ∧ ∃ t, insertDown swaps s m = some t ∧ s' = x :: t := by
  by_cases hs : S m x
  · simp [insertDown, h.keeps hs hr, hs, eq_comm]
  · simp [insertDown, h.undefined hs, hs]

theorem insertDown_cons_exchanged (h : Compares swaps R S) {m : α} (hr : ¬ R m x) :
    insertDown swaps (m :: s) x = some s' ↔
      S m x ∧ ∃ t, insertDown swaps s x = some t ∧ s' = m :: t := by
  by_cases hs : S m x
  · simp [insertDown, h.exchanges hs hr, hs, eq_comm]
  · simp [insertDown, h.undefined hs, hs]

theorem insertDown_top (h : Compares swaps R S) (hs : (x :: s).Pairwise fun a b => R b a) :
    insertDown swaps s x = some s' ↔ (x :: s).IsChain (fun a b => S b a) ∧ s' = x :: s := by
  induction s generalizing x s' with
  | nil => simp [insertDown, eq_comm]
  | cons m s ih =>
    obtain ⟨htop, hrest⟩ := List.pairwise_cons.mp hs
    rw [insertDown_cons_kept h (htop m List.mem_cons_self), List.isChain_cons_cons]
    simp only [ih hrest]
    constructor
    · rintro ⟨hsafe, t, ⟨hchain, rfl⟩, rfl⟩
      exact ⟨⟨hsafe, hchain⟩, rfl⟩
    · rintro ⟨⟨hsafe, hchain⟩, rfl⟩
      exact ⟨hsafe, _, ⟨hchain, rfl⟩, rfl⟩

variable [DecidableRel R] [IsTrans α R]

theorem insertDown_eq_some (h : Compares swaps R S) (hs : s.Pairwise fun a b => R b a) :
    insertDown swaps s x = some s' ↔
      (∀ a ∈ s, ¬ R a x → S a x) ∧ (x :: s.filter (R · x)).IsChain (fun a b => S b a) ∧
        s' = s.orderedInsert (fun a b => R b a) x := by
  induction s generalizing s' with
  | nil => simp [insertDown, eq_comm]
  | cons m s ih =>
    obtain ⟨htop, hrest⟩ := List.pairwise_cons.mp hs
    by_cases hr : R m x
    · have hall : ∀ a ∈ m :: s, R a x := by
        intro a ha
        rcases List.mem_cons.mp ha with rfl | ha
        · exact hr
        · exact IsTrans.trans _ _ _ (htop a ha) hr
      have hfilter : (m :: s).filter (R · x) = m :: s :=
        List.filter_eq_self.mpr fun a ha => by simpa using hall a ha
      have hdesc : (x :: m :: s).Pairwise fun a b => R b a := List.pairwise_cons.mpr ⟨hall, hs⟩
      rw [insertDown_top h hdesc, hfilter, List.orderedInsert_cons, if_pos hr]
      exact ⟨fun ⟨hchain, heq⟩ => ⟨fun a ha hn => absurd (hall a ha) hn, hchain, heq⟩,
        fun ⟨_, hchain, heq⟩ => ⟨hchain, heq⟩⟩
    · have hfilter : (m :: s).filter (R · x) = s.filter (R · x) :=
        List.filter_cons_of_neg (by simpa using hr)
      rw [insertDown_cons_exchanged h hr, hfilter, List.orderedInsert_cons, if_neg hr]
      simp only [ih hrest]
      constructor
      · rintro ⟨hsafe, t, ⟨hall, hchain, rfl⟩, rfl⟩
        refine ⟨fun a ha hn => ?_, hchain, rfl⟩
        rcases List.mem_cons.mp ha with rfl | ha
        · exact hsafe
        · exact hall a ha hn
      · rintro ⟨hall, hchain, rfl⟩
        exact ⟨hall m List.mem_cons_self hr, _,
          ⟨fun a ha => hall a (List.mem_cons_of_mem m ha), hchain, rfl⟩, rfl⟩

end Inserting

section Sorting

variable {α κ : Type} {swaps : α → α → Option Bool} {key : α → κ} {r Safe : κ → κ → Prop}
variable {x : α} {l s s' : List α} {ks front : List κ} {k : κ} [DecidableRel r]

def Joins (r Safe : κ → κ → Prop) [DecidableRel r] (front : List κ) (k : κ) : Prop :=
  (∀ a ∈ front, ¬ r a k → Safe a k) ∧
    ((front.filter (r · k)).insertionSort r ++ [k]).IsChain Safe

def Comparable (r Safe : κ → κ → Prop) [DecidableRel r] (ks : List κ) : Prop :=
  ∀ front k behind, ks = front ++ k :: behind → Joins r Safe front k

theorem comparable_nil : Comparable r Safe [] := fun front k behind h => by simp at h

theorem comparable_concat :
    Comparable r Safe (ks ++ [k]) ↔ Comparable r Safe ks ∧ Joins r Safe ks k := by
  constructor
  · intro h
    refine ⟨fun front a behind heq => ?_, h ks k [] rfl⟩
    exact h front a (behind ++ [k]) (by simp [heq])
  · rintro ⟨h, hk⟩ front a behind heq
    cases behind using List.reverseRecOn with
    | nil =>
      obtain ⟨rfl, rfl⟩ := List.append_singleton_inj.mp heq
      exact hk
    | append_singleton behind b =>
      rw [← List.cons_append, ← List.append_assoc] at heq
      exact h front a behind (List.append_singleton_inj.mp heq).1

theorem comparable_of_safe (h : ∀ a ∈ ks, ∀ b ∈ ks, Safe a b) : Comparable r Safe ks := by
  rintro front k behind rfl
  have hk : k ∈ front ++ k :: behind := by simp
  refine ⟨fun a ha _ => h a (List.mem_append_left _ ha) k hk, List.Pairwise.isChain ?_⟩
  have hmem : ∀ a ∈ (front.filter (r · k)).insertionSort r ++ [k], a ∈ front ++ k :: behind := by
    intro a ha
    rcases List.mem_append.mp ha with ha | ha
    · have hin := (List.perm_insertionSort r _).mem_iff.mp ha
      exact List.mem_append_left _ (List.mem_filter.mp hin).1
    · rw [List.mem_singleton.mp ha]
      exact hk
  exact List.pairwise_of_forall_mem_list fun a ha b hb => h a (hmem a ha) b (hmem b hb)

variable [Std.Total r] [IsTrans κ r]

abbrev ComparesBy (swaps : α → α → Option Bool) (key : α → κ) (r Safe : κ → κ → Prop) : Prop :=
  Compares swaps (fun a b => r (key a) (key b)) fun a b => Safe (key a) (key b)

omit [DecidableRel r] [Std.Total r] in
theorem isTrans_key (key : α → κ) (r : κ → κ → Prop) [IsTrans κ r] :
    IsTrans α fun a b => r (key a) (key b) :=
  ⟨fun a b c => IsTrans.trans (key a) (key b) (key c)⟩

theorem foldlM_insertDown (h : ComparesBy swaps key r Safe)
    (hrun : l.foldlM (insertDown swaps) [] = some s) :
    (s.Pairwise fun a b => r (key b) (key a)) ∧ s.Perm l := by
  have : IsTrans α fun a b => r (key a) (key b) := isTrans_key key r
  have : Std.Total fun a b : α => r (key b) (key a) :=
    ⟨fun a b => Std.Total.total (key b) (key a)⟩
  have : IsTrans α fun a b : α => r (key b) (key a) :=
    ⟨fun a b c hab hbc => IsTrans.trans _ _ _ hbc hab⟩
  induction l using List.reverseRecOn generalizing s with
  | nil =>
    obtain rfl := Option.some.inj hrun
    exact ⟨.nil, .nil⟩
  | append_singleton l x ih =>
    rw [List.foldlM_append] at hrun
    obtain ⟨t, ht, hx⟩ := Option.bind_eq_some_iff.mp hrun
    obtain ⟨hdesc, hperm⟩ := ih ht
    rw [List.foldlM_cons] at hx
    obtain ⟨u, hu, hx⟩ := Option.bind_eq_some_iff.mp hx
    obtain rfl := Option.some.inj hx
    obtain ⟨-, -, rfl⟩ := (insertDown_eq_some h hdesc).mp hu
    refine ⟨hdesc.orderedInsert x t, (List.perm_orderedInsert _ x t).trans ?_⟩
    exact (hperm.cons x).trans (List.perm_append_singleton x l).symm

theorem bubbleSort_sorts (h : ComparesBy swaps key r Safe) (hrun : bubbleSort swaps l = some s) :
    s.Perm l ∧ s.Pairwise fun a b => r (key a) (key b) := by
  rw [bubbleSort_eq] at hrun
  obtain ⟨t, ht, rfl⟩ := Option.map_eq_some_iff.mp hrun
  obtain ⟨hdesc, hperm⟩ := foldlM_insertDown h ht
  exact ⟨(List.reverse_perm t).trans hperm, List.pairwise_reverse.mpr hdesc⟩

variable [Std.Antisymm r]

theorem filter_insertionSort (hdesc : s.Pairwise fun a b => r (key b) (key a)) (hperm : s.Perm l) :
    ((l.map key).filter (r · k)).insertionSort r =
      ((s.filter fun a => r (key a) k).map key).reverse := by
  refine List.Perm.eq_of_pairwise (fun a b _ _ hab hba => Std.Antisymm.antisymm a b hab hba)
    (List.pairwise_insertionSort r _) ?_ ?_
  · rw [List.pairwise_reverse, List.pairwise_map]
    exact hdesc.filter _
  · refine (List.perm_insertionSort r _).trans (List.Perm.trans ?_ (List.reverse_perm _).symm)
    rw [List.filter_map]
    exact ((hperm.symm).filter _).map key

theorem joins_iff (hdesc : s.Pairwise fun a b => r (key b) (key a)) (hperm : s.Perm l) :
    Joins r Safe (l.map key) (key x) ↔
      (∀ a ∈ s, ¬ r (key a) (key x) → Safe (key a) (key x)) ∧
        (x :: s.filter fun a => r (key a) (key x)).IsChain fun a b => Safe (key b) (key a) := by
  rw [Joins, filter_insertionSort hdesc hperm, List.forall_mem_map]
  refine and_congr (by simp only [hperm.mem_iff]) ?_
  rw [← List.reverse_cons, ← List.map_cons, List.isChain_reverse, List.isChain_map]

theorem bubbleSort_isSome_iff (h : ComparesBy swaps key r Safe) (l : List α) :
    (bubbleSort swaps l).isSome ↔ Comparable r Safe (l.map key) := by
  rw [bubbleSort_eq, Option.map_eq_map, Option.isSome_map]
  induction l using List.reverseRecOn with
  | nil => exact ⟨fun _ => comparable_nil, fun _ => rfl⟩
  | append_singleton l x ih =>
    rw [List.map_append, List.map_singleton, comparable_concat, ← ih, List.foldlM_append]
    cases hrun : l.foldlM (insertDown swaps) [] with
    | none => simp
    | some s =>
      have : IsTrans α fun a b => r (key a) (key b) := isTrans_key key r
      obtain ⟨hdesc, hperm⟩ := foldlM_insertDown h hrun
      rw [joins_iff hdesc hperm]
      simp [Option.isSome_iff_exists, insertDown_eq_some h hdesc]

end Sorting

end ZoraVM.Foundation
