import Mathlib.Tactic

namespace ZoraVM.Foundation

-- What a C execution can run into where the language gives it no meaning.
inductive Fault where
  | bufferOverflow
  | freedNode
  | freedBlock
  | stackOverflow
  | wildPointer
  deriving DecidableEq, Repr

abbrev Outcome (α : Type) := Except Fault α

theorem Outcome.bind_eq_ok {ε α β : Type} {x : Except ε α} {f : α → Except ε β} {b : β} :
    x >>= f = .ok b ↔ ∃ a, x = .ok a ∧ f a = .ok b := by
  cases x with
  | error e => simp [bind, Except.bind]
  | ok a => simp [bind, Except.bind]

theorem Outcome.map_eq_ok {ε α β : Type} {x : Except ε α} {f : α → β} {b : β} :
    f <$> x = .ok b ↔ ∃ a, x = .ok a ∧ f a = b := by
  cases x with
  | error e => simp [Functor.map, Except.map]
  | ok a => simp [Functor.map, Except.map]

theorem Outcome.foldlM_ok {ε σ ι : Type} {f : σ → ι → Except ε σ} {P : σ → Prop} {is : List ι}
    {s s' : σ} (hstep : ∀ s i s', i ∈ is → P s → f s i = .ok s' → P s') (h₀ : P s)
    (h : is.foldlM f s = .ok s') : P s' := by
  induction is generalizing s with
  | nil => exact Except.ok.inj h ▸ h₀
  | cons i is ih =>
    rw [List.foldlM_cons] at h
    obtain ⟨t, ht, hrest⟩ := Outcome.bind_eq_ok.mp h
    refine ih (fun s j s' hj => hstep s j s' (List.mem_cons_of_mem i hj)) ?_ hrest
    exact hstep s i t List.mem_cons_self h₀ ht

theorem Outcome.foldlM_total {σ ι : Type} {f : σ → ι → Outcome σ} {P : List ι → σ → Prop}
    {is : List ι} {s : σ} (h₀ : P [] s)
    (hstep : ∀ done i rest s, is = done ++ i :: rest → P done s →
      ∃ s', f s i = .ok s' ∧ P (done ++ [i]) s') : ∃ s', is.foldlM f s = .ok s' ∧ P is s' := by
  induction is generalizing s P with
  | nil => exact ⟨s, rfl, h₀⟩
  | cons i is ih =>
    obtain ⟨t, ht, hP⟩ := hstep [] i is s rfl h₀
    obtain ⟨s', hrest, hP'⟩ := ih (P := fun done s => P (i :: done) s) hP
      fun done j rest s his hs => hstep (i :: done) j rest s (his ▸ rfl) hs
    exact ⟨s', by rw [List.foldlM_cons]; exact Outcome.bind_eq_ok.mpr ⟨t, ht, hrest⟩, hP'⟩

-- Addresses are never reused: a freed cell stays `none`.
structure Heap (α : Type) where
  cells : List (Option α)
  deriving DecidableEq, Repr

namespace Heap

variable {α : Type}

def empty : Heap α := ⟨[]⟩

def size (h : Heap α) : Nat := h.cells.length

def get (h : Heap α) (p : Nat) : Option α := h.cells[p]?.join

def alloc (h : Heap α) (a : α) : Heap α := ⟨h.cells ++ [some a]⟩

def put (h : Heap α) (p : Nat) (a : α) : Heap α := ⟨h.cells.set p (some a)⟩

def free (h : Heap α) (p : Nat) : Heap α := ⟨h.cells.set p none⟩

def modify (h : Heap α) (p : Nat) (f : α → α) : Heap α :=
  match h.get p with
  | none => h
  | some a => h.put p (f a)

def live (h : Heap α) (p : Nat) : Bool := (h.get p).isSome

theorem lt_size_of_get {h : Heap α} {p : Nat} {a : α} (hp : h.get p = some a) : p < h.size := by
  by_contra hge
  have : h.cells[p]? = none := List.getElem?_eq_none (Nat.le_of_not_lt hge)
  simp [get, this] at hp

@[simp] theorem get_size (h : Heap α) : h.get h.size = none := by simp [get, size]

@[simp] theorem get_empty (p : Nat) : (empty : Heap α).get p = none := by simp [get, empty]

@[simp] theorem size_alloc (h : Heap α) (a : α) : (h.alloc a).size = h.size + 1 := by
  simp [size, alloc]

@[simp] theorem size_put (h : Heap α) (p : Nat) (a : α) : (h.put p a).size = h.size := by
  simp [size, put]

@[simp] theorem size_free (h : Heap α) (p : Nat) : (h.free p).size = h.size := by
  simp [size, free]

@[simp] theorem size_modify (h : Heap α) (p : Nat) (f : α → α) : (h.modify p f).size = h.size := by
  unfold modify
  cases h.get p <;> simp

theorem get_alloc (h : Heap α) (a : α) (p : Nat) :
    (h.alloc a).get p = if p = h.size then some a else h.get p := by
  rcases Nat.lt_trichotomy p h.cells.length with hlt | heq | hgt
  · simp [get, alloc, size, List.getElem?_append_left hlt, Nat.ne_of_lt hlt]
  · simp [get, alloc, size, heq]
  · have h1 : h.cells[p]? = none := List.getElem?_eq_none (Nat.le_of_lt hgt)
    have h2 : (h.cells ++ [some a])[p]? = none := List.getElem?_eq_none (by simp; omega)
    simp [get, alloc, size, h1, h2, Nat.ne_of_gt hgt]

@[simp] theorem get_alloc_self (h : Heap α) (a : α) : (h.alloc a).get h.size = some a := by
  simp [get_alloc]

theorem get_alloc_of_ne {h : Heap α} {a : α} {p : Nat} (hp : p ≠ h.size) :
    (h.alloc a).get p = h.get p := by
  simp [get_alloc, hp]

theorem get_alloc_of_get {h : Heap α} {a b : α} {p : Nat} (hp : h.get p = some b) :
    (h.alloc a).get p = some b := by
  rw [get_alloc_of_ne (Nat.ne_of_lt (lt_size_of_get hp)), hp]

theorem get_put_of_ne {h : Heap α} {p q : Nat} {a : α} (hq : q ≠ p) :
    (h.put p a).get q = h.get q := by
  simp [get, put, List.getElem?_set_ne hq.symm]

theorem get_put_self {h : Heap α} {p : Nat} {a : α} (hp : p < h.size) :
    (h.put p a).get p = some a := by
  have : p < h.cells.length := hp
  simp [get, put, this]

theorem put_of_get {h : Heap α} {p : Nat} {a : α} (hp : h.get p = some a) : h.put p a = h := by
  have hcell : h.cells[p]? = some (some a) := by
    simpa [get, Option.join_eq_some_iff] using hp
  obtain ⟨hlt, hcell⟩ := List.getElem?_eq_some_iff.mp hcell
  rw [put, ← hcell, List.set_getElem_self]

theorem get_free_of_ne {h : Heap α} {p q : Nat} (hq : q ≠ p) : (h.free p).get q = h.get q := by
  simp [get, free, List.getElem?_set_ne hq.symm]

@[simp] theorem get_free_self (h : Heap α) (p : Nat) : (h.free p).get p = none := by
  by_cases hp : p < h.cells.length
  · simp [get, free, hp]
  · have h1 : (h.cells.set p none)[p]? = none := List.getElem?_eq_none (by simpa using hp)
    simp [get, free, h1]

theorem get_free (h : Heap α) (p q : Nat) :
    (h.free p).get q = if q = p then none else h.get q := by
  by_cases hq : q = p
  · simp [hq]
  · simp [hq, get_free_of_ne hq]

theorem get_modify (h : Heap α) (p q : Nat) (f : α → α) :
    (h.modify p f).get q = if q = p then (h.get p).map f else h.get q := by
  unfold modify
  by_cases hq : q = p
  · subst hq
    cases hg : h.get q with
    | none => simp [hg]
    | some a => simp [get_put_self (lt_size_of_get hg)]
  · cases hg : h.get p with
    | none => simp [hq]
    | some a => simp [hq, get_put_of_ne hq]

@[simp] theorem get_modify_self (h : Heap α) (p : Nat) (f : α → α) :
    (h.modify p f).get p = (h.get p).map f := by simp [get_modify]

theorem get_modify_of_ne {h : Heap α} {p q : Nat} {f : α → α} (hq : q ≠ p) :
    (h.modify p f).get q = h.get q := by simp [get_modify, hq]

end Heap

end ZoraVM.Foundation
