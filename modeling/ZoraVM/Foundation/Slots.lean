import Mathlib

namespace ZoraVM.Foundation

structure Block where
  start : Nat
  size : Nat
  deriving DecidableEq, Repr

def Block.bytes (b : Block) : Set Nat := Set.Ico b.start (b.start + b.size)

def Block.Apart (a b : Block) : Prop := Disjoint a.bytes b.bytes

section Ranges

variable {a b outer : Block}

theorem apart_iff : a.Apart b ↔ a.size = 0 ∨ b.size = 0 ∨ a.start + a.size ≤ b.start ∨
    b.start + b.size ≤ a.start := by
  rw [Block.Apart, Block.bytes, Block.bytes, Set.Ico_disjoint_Ico]
  omega

instance : Decidable (a.Apart b) := decidable_of_iff _ apart_iff.symm

theorem Block.Apart.symm (h : a.Apart b) : b.Apart a := Disjoint.symm h

structure Block.Inside (a outer : Block) : Prop where
  low : outer.start ≤ a.start
  high : a.start + a.size ≤ outer.start + outer.size

theorem Block.Inside.apart (h : a.Inside outer) (hapart : outer.Apart b) : a.Apart b :=
  hapart.mono_left (Set.Ico_subset_Ico h.low h.high)

end Ranges

section Slots

variable {start block n i j a b : Nat}

def slot (start block n i : Nat) : Nat := start + i % n * block

theorem slots_apart_iff (ha : a ≤ block) (hb : b ≤ block) :
    (⟨slot start block n i, a⟩ : Block).Apart ⟨slot start block n j, b⟩ ↔
      a = 0 ∨ b = 0 ∨ i % n ≠ j % n := by
  have hstep {k l : Nat} (h : k < l) : k * block + block ≤ l * block := by
    calc k * block + block = (k + 1) * block := (Nat.succ_mul k block).symm
      _ ≤ l * block := Nat.mul_le_mul_right block h
  rw [apart_iff]
  simp only [slot]
  rcases Nat.lt_trichotomy (i % n) (j % n) with h | h | h
  · have hle := hstep h
    omega
  · rw [h]
    omega
  · have hle := hstep h
    omega

theorem slot_inside (hn : 0 < n) (ha : a ≤ block) :
    (⟨slot start block n i, a⟩ : Block).Inside ⟨start, n * block⟩ := by
  have hlt := Nat.mod_lt i hn
  have hle : (i % n + 1) * block ≤ n * block := Nat.mul_le_mul_right block hlt
  rw [Nat.succ_mul] at hle
  constructor
  · exact Nat.le_add_right _ _
  · simp only [slot]
    omega

end Slots

end ZoraVM.Foundation
