import Mathlib.Tactic
import Mathlib.Logic.Relation

namespace ZoraVM.Foundation

section Gather

variable {α β : Type} {f : β → Option (List α)} {bs : List β} {es : List α} {e : α} {b : β}

def gather (f : β → Option (List α)) : List β → Option (List α)
  | [] => some []
  | b :: bs => (f b).bind fun es => (gather f bs).map (es ++ ·)

theorem gather_cons_eq_some : gather f (b :: bs) = some es ↔
    ∃ eb er, f b = some eb ∧ gather f bs = some er ∧ es = eb ++ er := by
  simp only [gather, Option.bind_eq_some_iff, Option.map_eq_some_iff]
  constructor
  · rintro ⟨eb, hb, er, hr, rfl⟩
    exact ⟨eb, er, hb, hr, rfl⟩
  · rintro ⟨eb, er, hb, hr, rfl⟩
    exact ⟨eb, hb, er, hr, rfl⟩

theorem gather_some (h : ∀ b ∈ bs, ∃ eb, f b = some eb) : ∃ es, gather f bs = some es := by
  induction bs with
  | nil => exact ⟨[], rfl⟩
  | cons b bs ih =>
    obtain ⟨eb, hb⟩ := h b List.mem_cons_self
    obtain ⟨er, hr⟩ := ih fun c hc => h c (List.mem_cons_of_mem b hc)
    exact ⟨eb ++ er, gather_cons_eq_some.mpr ⟨eb, er, hb, hr, rfl⟩⟩

theorem some_of_gather (h : gather f bs = some es) (hb : b ∈ bs) : ∃ eb, f b = some eb := by
  induction bs generalizing es with
  | nil => cases hb
  | cons c bs ih =>
    obtain ⟨ec, er, hc, hr, _⟩ := gather_cons_eq_some.mp h
    rcases List.mem_cons.mp hb with rfl | hb
    · exact ⟨ec, hc⟩
    · exact ih hr hb

theorem mem_gather (h : gather f bs = some es) :
    e ∈ es ↔ ∃ b ∈ bs, ∃ eb, f b = some eb ∧ e ∈ eb := by
  induction bs generalizing es with
  | nil =>
    obtain rfl := Option.some.inj h
    simp
  | cons c bs ih =>
    obtain ⟨ec, er, hc, hr, rfl⟩ := gather_cons_eq_some.mp h
    rw [List.mem_append, ih hr]
    constructor
    · rintro (he | ⟨b, hb, eb, hfb, he⟩)
      · exact ⟨c, List.mem_cons_self, ec, hc, he⟩
      · exact ⟨b, List.mem_cons_of_mem c hb, eb, hfb, he⟩
    · rintro ⟨b, hb, eb, hfb, he⟩
      rcases List.mem_cons.mp hb with rfl | hb
      · obtain rfl := Option.some.inj (hc.symm.trans hfb)
        exact .inl he
      · exact .inr ⟨b, hb, eb, hfb, he⟩

theorem gather_nodup (h : gather f bs = some es) (hbs : bs.Nodup)
    (hown : ∀ b ∈ bs, ∀ eb, f b = some eb → eb.Nodup)
    (hapart : ∀ b ∈ bs, ∀ c ∈ bs, ∀ eb ec, f b = some eb → f c = some ec → ∀ e ∈ eb, e ∈ ec → b = c) :
    es.Nodup := by
  induction bs generalizing es with
  | nil =>
    obtain rfl := Option.some.inj h
    exact List.nodup_nil
  | cons c bs ih =>
    obtain ⟨ec, er, hc, hr, rfl⟩ := gather_cons_eq_some.mp h
    obtain ⟨hfresh, hrest⟩ := List.nodup_cons.mp hbs
    have hin : ∀ b ∈ bs, b ∈ c :: bs := fun b hb => List.mem_cons_of_mem c hb
    refine List.nodup_append.mpr ⟨hown c List.mem_cons_self ec hc, ?_, ?_⟩
    · exact ih hr hrest (fun b hb => hown b (hin b hb)) fun b hb d hd => hapart b (hin b hb) d (hin d hd)
    · rintro e he e' he' rfl
      obtain ⟨b, hb, eb, hfb, hmem⟩ := (mem_gather hr).mp he'
      obtain rfl := hapart c List.mem_cons_self b (hin b hb) ec eb hc hfb e he hmem
      exact hfresh hb

end Gather

-- A recursion that goes through the items of a call, emits something for each and may call
-- itself for it.
structure Traversal (ι β α : Type) where
  items : ι → List β
  emit : ι → β → List α
  next : ι → β → Option ι

namespace Traversal

variable {ι β α : Type} (t : Traversal ι β α)

def ofItem (self : ι → Option (List α)) (i : ι) (b : β) : Option (List α) :=
  match t.next i b with
  | some j => (self j).map (t.emit i b ++ ·)
  | none => some (t.emit i b)

def visit : Nat → ι → Option (List α)
  | 0, _ => none
  | fuel + 1, i => gather (t.ofItem (visit fuel) i) (t.items i)

def Calls (i j : ι) : Prop := ∃ b ∈ t.items i, t.next i b = some j

def Reaches (i j : ι) : Prop := Relation.ReflTransGen t.Calls i j

def Emits (i : ι) (e : α) : Prop := ∃ b ∈ t.items i, e ∈ t.emit i b

variable {t} {i j : ι} {b : β} {e : α} {es : List α} {fuel : Nat}

theorem ofItem_call {self : ι → Option (List α)} (h : t.next i b = some j) :
    t.ofItem self i b = (self j).map (t.emit i b ++ ·) := by
  simp only [ofItem, h]

theorem ofItem_plain {self : ι → Option (List α)} (h : t.next i b = none) :
    t.ofItem self i b = some (t.emit i b) := by
  simp only [ofItem, h]

theorem returns_call (h : t.visit fuel i = some es) (hcall : t.Calls i j) :
    ∃ fuel' es', t.visit fuel' j = some es' := by
  cases fuel with
  | zero => cases h
  | succ fuel =>
    obtain ⟨b, hb, hnext⟩ := hcall
    obtain ⟨eb, heb⟩ := some_of_gather h hb
    rw [ofItem_call hnext] at heb
    obtain ⟨es', hes', _⟩ := Option.map_eq_some_iff.mp heb
    exact ⟨fuel, es', hes'⟩

theorem returns_of_reaches (h : t.visit fuel i = some es) (hreach : t.Reaches i j) :
    ∃ fuel' es', t.visit fuel' j = some es' := by
  induction hreach with
  | refl => exact ⟨fuel, es, h⟩
  | tail _ hcall ih =>
    obtain ⟨_, _, hj⟩ := ih
    exact returns_call hj hcall

theorem never_returns {P : ι → Prop} (hstep : ∀ i, P i → ∃ j, t.Calls i j ∧ P j) (hi : P i) :
    t.visit fuel i = none := by
  induction fuel generalizing i with
  | zero => rfl
  | succ fuel ih =>
    obtain ⟨j, ⟨b, hb, hnext⟩, hj⟩ := hstep i hi
    cases hvisit : t.visit (fuel + 1) i with
    | none => rfl
    | some es =>
      obtain ⟨eb, heb⟩ := some_of_gather hvisit hb
      rw [ofItem_call hnext, ih hj] at heb
      cases heb

theorem returns_of_rank {P : Nat → ι → Prop}
    (hstep : ∀ k i, P k i → ∀ j, t.Calls i j → ∃ k' < k, P k' j) {k : Nat} (hi : P k i)
    (hfuel : k < fuel) : ∃ es, t.visit fuel i = some es := by
  induction fuel generalizing i k with
  | zero => exact absurd hfuel (Nat.not_lt_zero k)
  | succ fuel ih =>
    refine gather_some fun b hb => ?_
    cases hnext : t.next i b with
    | none => exact ⟨_, ofItem_plain hnext⟩
    | some j =>
      obtain ⟨k', hk', hj⟩ := hstep k i hi j ⟨b, hb, hnext⟩
      obtain ⟨es, hes⟩ := ih hj (Nat.lt_of_lt_of_le hk' (Nat.le_of_lt_succ hfuel))
      exact ⟨_, by rw [ofItem_call hnext, hes]; rfl⟩

theorem mem_visit (h : t.visit fuel i = some es) :
    e ∈ es ↔ ∃ j, t.Reaches i j ∧ t.Emits j e := by
  induction fuel generalizing i es with
  | zero => cases h
  | succ fuel ih =>
    rw [mem_gather h]
    constructor
    · rintro ⟨b, hb, eb, heb, he⟩
      cases hnext : t.next i b with
      | none =>
        rw [ofItem_plain hnext] at heb
        obtain rfl := Option.some.inj heb
        exact ⟨i, .refl, b, hb, he⟩
      | some j =>
        rw [ofItem_call hnext] at heb
        obtain ⟨es', hes', rfl⟩ := Option.map_eq_some_iff.mp heb
        rcases List.mem_append.mp he with he | he
        · exact ⟨i, .refl, b, hb, he⟩
        · obtain ⟨k, hk, hemit⟩ := (ih hes').mp he
          exact ⟨k, .head ⟨b, hb, hnext⟩ hk, hemit⟩
    · rintro ⟨k, hk, hemit⟩
      rcases Relation.ReflTransGen.cases_head hk with rfl | ⟨j, ⟨b, hb, hnext⟩, hrest⟩
      · obtain ⟨b, hb, he⟩ := hemit
        obtain ⟨eb, heb⟩ := some_of_gather h hb
        refine ⟨b, hb, eb, heb, ?_⟩
        cases hnext : t.next i b with
        | none =>
          rw [ofItem_plain hnext] at heb
          exact Option.some.inj heb ▸ he
        | some j =>
          rw [ofItem_call hnext] at heb
          obtain ⟨es', _, rfl⟩ := Option.map_eq_some_iff.mp heb
          exact List.mem_append_left es' he
      · obtain ⟨eb, heb⟩ := some_of_gather h hb
        have hcall := heb
        rw [ofItem_call hnext] at hcall
        obtain ⟨es', hes', rfl⟩ := Option.map_eq_some_iff.mp hcall
        exact ⟨b, hb, _, heb, List.mem_append_right _ ((ih hes').mpr ⟨k, hrest, hemit⟩)⟩

def Yields (t : Traversal ι β α) (i : ι) (b : β) (e : α) : Prop :=
  e ∈ t.emit i b ∨ ∃ j k, t.next i b = some j ∧ t.Reaches j k ∧ t.Emits k e

theorem yields_of_mem {eb : List α} (h : t.ofItem (t.visit fuel) i b = some eb) (he : e ∈ eb) :
    t.Yields i b e := by
  cases hnext : t.next i b with
  | none =>
    rw [ofItem_plain hnext] at h
    obtain rfl := Option.some.inj h
    exact .inl he
  | some j =>
    rw [ofItem_call hnext] at h
    obtain ⟨es', hes', rfl⟩ := Option.map_eq_some_iff.mp h
    rcases List.mem_append.mp he with he | he
    · exact .inl he
    · obtain ⟨k, hk, hemit⟩ := (mem_visit hes').mp he
      exact .inr ⟨j, k, hnext, hk, hemit⟩

theorem visit_nodup (hitems : ∀ k, t.Reaches i k → (t.items k).Nodup)
    (hemit : ∀ k b, t.Reaches i k → b ∈ t.items k → (t.emit k b).Nodup)
    (hapart : ∀ k b c e, t.Reaches i k → b ∈ t.items k → c ∈ t.items k → t.Yields k b e →
      t.Yields k c e → b = c)
    (hbelow : ∀ k b j e, t.Reaches i k → b ∈ t.items k → t.next k b = some j → e ∈ t.emit k b →
      ¬ ∃ l, t.Reaches j l ∧ t.Emits l e)
    (h : t.visit fuel i = some es) : es.Nodup := by
  induction fuel generalizing i es with
  | zero => cases h
  | succ fuel ih =>
    refine gather_nodup h (hitems i .refl) ?_ ?_
    · intro b hb eb heb
      cases hnext : t.next i b with
      | none =>
        rw [ofItem_plain hnext] at heb
        exact Option.some.inj heb ▸ hemit i b .refl hb
      | some j =>
        rw [ofItem_call hnext] at heb
        obtain ⟨es', hes', rfl⟩ := Option.map_eq_some_iff.mp heb
        have hunder : ∀ k, t.Reaches j k → t.Reaches i k := fun k hk => .head ⟨b, hb, hnext⟩ hk
        refine List.nodup_append.mpr ⟨hemit i b .refl hb, ?_, ?_⟩
        · exact ih (fun k hk => hitems k (hunder k hk)) (fun k b hk => hemit k b (hunder k hk))
            (fun k b c e hk => hapart k b c e (hunder k hk))
            (fun k b j e hk => hbelow k b j e (hunder k hk)) hes'
        · rintro e he e' he' rfl
          exact hbelow i b j e .refl hb hnext he ((mem_visit hes').mp he')
    · intro b hb c hc eb ec hfb hfc e he he'
      exact hapart i b c e .refl hb hc (yields_of_mem hfb he) (yields_of_mem hfc he')

end Traversal

end ZoraVM.Foundation
