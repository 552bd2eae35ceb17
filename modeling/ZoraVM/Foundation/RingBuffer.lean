import Mathlib.Data.List.Range
import Mathlib.Data.Nat.ModEq

namespace ZoraVM.Foundation

section Queue

variable {α : Type} {limit : Nat}

inductive QueueCall (α : Type) where
  | put (x : α)
  | take
  deriving DecidableEq, Repr

-- A first-in first-out queue of at most `limit` values, and what became of each value so far.
structure QueueLog (α : Type) where
  pending : List α
  accepted : List α
  dropped : List α
  returned : List α
  deriving DecidableEq, Repr

namespace QueueLog

def empty : QueueLog α := ⟨[], [], [], []⟩

def next (limit : Nat) (l : QueueLog α) : QueueCall α → QueueLog α
  | .put x =>
    if l.pending.length < limit then
      { l with pending := l.pending ++ [x], accepted := l.accepted ++ [x] }
    else { l with dropped := l.dropped ++ [x] }
  | .take =>
    match l.pending with
    | [] => l
    | x :: xs => { l with pending := xs, returned := l.returned ++ [x] }

structure Kept (limit : Nat) (l : QueueLog α) : Prop where
  bounded : l.pending.length ≤ limit
  conserved : l.accepted = l.returned ++ l.pending

theorem kept_empty : Kept limit (empty : QueueLog α) where
  bounded := Nat.zero_le _
  conserved := rfl

theorem Kept.next {l : QueueLog α} (h : l.Kept limit) (call : QueueCall α) :
    (l.next limit call).Kept limit := by
  cases call with
  | put x =>
    by_cases hroom : l.pending.length < limit
    · simp only [QueueLog.next, if_pos hroom]
      exact ⟨by simpa using Nat.succ_le_of_lt hroom, by simp [h.conserved]⟩
    · simp only [QueueLog.next, if_neg hroom]
      exact ⟨h.bounded, h.conserved⟩
  | take =>
    cases hp : l.pending with
    | nil => simpa only [QueueLog.next, hp] using h
    | cons x xs =>
      have hle : xs.length + 1 ≤ limit := by simpa [hp] using h.bounded
      have hacc : l.accepted = l.returned ++ x :: xs := by rw [h.conserved, hp]
      simp only [QueueLog.next, hp]
      exact ⟨by dsimp only; omega, by simp [hacc]⟩

theorem Kept.run {l : QueueLog α} (h : l.Kept limit) (calls : List (QueueCall α)) :
    (calls.foldl (QueueLog.next limit) l).Kept limit := by
  induction calls generalizing l with
  | nil => exact h
  | cons call calls ih => exact ih (h.next call)

theorem Kept.dropped_only_full {l : QueueLog α} (h : l.Kept limit) {x : α}
    (hne : (l.next limit (.put x)).dropped ≠ l.dropped) : l.pending.length = limit := by
  by_contra hlen
  have hroom : l.pending.length < limit := Nat.lt_of_le_of_ne h.bounded hlen
  exact hne (by simp [QueueLog.next, hroom])

end QueueLog

end Queue

structure RingBuffer (α : Type) where
  cells : Nat → α
  readPos : Nat
  writePos : Nat
  count : Nat

namespace RingBuffer

variable {α : Type} {capacity : Nat}

def put (capacity : Nat) (r : RingBuffer α) (x : α) : RingBuffer α :=
  if r.count < capacity then
    { cells := Function.update r.cells r.writePos x
      readPos := r.readPos
      writePos := (r.writePos + 1) % capacity
      count := r.count + 1 }
  else r

def take (capacity : Nat) (r : RingBuffer α) : Option α × RingBuffer α :=
  if r.count = 0 then (none, r)
  else (some (r.cells r.readPos),
    { r with readPos := (r.readPos + 1) % capacity, count := r.count - 1 })

def contents (capacity : Nat) (r : RingBuffer α) : List α :=
  (List.range r.count).map fun i => r.cells ((r.readPos + i) % capacity)

structure Sound (capacity : Nat) (r : RingBuffer α) : Prop where
  read_lt : r.readPos < capacity
  write_eq : r.writePos = (r.readPos + r.count) % capacity
  count_le : r.count ≤ capacity

variable {r : RingBuffer α}

theorem length_contents : (r.contents capacity).length = r.count := by
  simp [contents]

theorem cell_ne (start : Nat) {i j : Nat} (hij : i < j) (hj : j < capacity) :
    (start + i) % capacity ≠ (start + j) % capacity := by
  intro h
  have hmod : i ≡ j [MOD capacity] := Nat.ModEq.add_left_cancel' start h
  have heq : i = j := Nat.ModEq.eq_of_lt_of_lt hmod (hij.trans hj) hj
  omega

theorem contents_put (h : r.Sound capacity) (hroom : r.count < capacity) (x : α) :
    (r.put capacity x).contents capacity = r.contents capacity ++ [x] := by
  have hold : ∀ i ∈ List.range r.count,
      Function.update r.cells r.writePos x ((r.readPos + i) % capacity) =
        r.cells ((r.readPos + i) % capacity) := by
    intro i hi
    have hne := cell_ne r.readPos (List.mem_range.mp hi) hroom
    rw [h.write_eq]
    exact Function.update_of_ne hne _ _
  simp only [put, if_pos hroom, contents, List.range_succ, List.map_append]
  rw [List.map_congr_left hold]
  simp [h.write_eq]

theorem contents_take (h : r.Sound capacity) (hsome : r.count ≠ 0) :
    r.contents capacity =
      r.cells r.readPos :: (r.take capacity).2.contents capacity := by
  obtain ⟨n, hn⟩ := Nat.exists_eq_succ_of_ne_zero hsome
  rw [take, if_neg hsome, contents, contents, hn, List.range_succ_eq_map, List.map_cons,
    List.map_map, Nat.add_zero, Nat.mod_eq_of_lt h.read_lt]
  simp only [Nat.succ_sub_one]
  congr 1
  refine List.map_congr_left fun i _ => ?_
  have hsum : r.readPos + (i + 1) = r.readPos + 1 + i := by omega
  rw [Function.comp_apply, Nat.mod_add_mod, hsum]

theorem Sound.put (h : r.Sound capacity) (x : α) : (r.put capacity x).Sound capacity := by
  by_cases hroom : r.count < capacity
  · simp only [RingBuffer.put, if_pos hroom]
    refine ⟨h.read_lt, ?_, hroom⟩
    rw [h.write_eq, Nat.mod_add_mod, Nat.add_assoc]
  · simpa only [RingBuffer.put, if_neg hroom] using h

theorem Sound.take (h : r.Sound capacity) : (r.take capacity).2.Sound capacity := by
  by_cases hnone : r.count = 0
  · simpa only [RingBuffer.take, if_pos hnone] using h
  · simp only [RingBuffer.take, if_neg hnone]
    have hlt := h.read_lt
    have hle := h.count_le
    refine ⟨Nat.mod_lt _ (by omega), ?_, by dsimp only; omega⟩
    have hsum : r.readPos + 1 + (r.count - 1) = r.readPos + r.count := by omega
    rw [h.write_eq, Nat.mod_add_mod, hsum]

theorem Sound.write_lt (h : r.Sound capacity) : r.writePos < capacity := by
  have hlt := h.read_lt
  rw [h.write_eq]
  exact Nat.mod_lt _ (by omega)

theorem Sound.count_mod (h : r.Sound capacity) :
    r.count % capacity = (r.writePos + capacity - r.readPos) % capacity := by
  have hlt := h.read_lt
  have hle := h.count_le
  have hw := h.write_lt
  have hsplit := Nat.mod_add_div (r.readPos + r.count) capacity
  have hturns : (r.readPos + r.count) / capacity < 2 := Nat.div_lt_of_lt_mul (by omega)
  rw [← h.write_eq] at hsplit
  generalize (r.readPos + r.count) / capacity = turns at hsplit hturns
  match turns, hturns with
  | 0, _ =>
    have heq : r.writePos + capacity - r.readPos = r.count + capacity := by omega
    rw [heq, Nat.add_mod_right]
  | 1, _ =>
    have heq : r.writePos + capacity - r.readPos = r.count := by omega
    rw [heq]

-- The positions alone do not tell a full ring from an empty one; the count does.
theorem Sound.meeting (h : r.Sound capacity) (hmeet : r.writePos = r.readPos) :
    r.count = 0 ∨ r.count = capacity := by
  have hle := h.count_le
  have hmod := h.count_mod
  rw [hmeet, Nat.add_sub_cancel_left, Nat.mod_self] at hmod
  obtain ⟨k, hk⟩ := Nat.dvd_of_mod_eq_zero hmod
  rcases Nat.lt_or_ge r.count capacity with hlt | hge
  · exact .inl (Nat.eq_zero_of_dvd_of_lt ⟨k, hk⟩ hlt)
  · exact .inr (Nat.le_antisymm hle hge)

end RingBuffer

end ZoraVM.Foundation
