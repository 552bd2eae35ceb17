import ZoraVM.Foundation.Heap

namespace ZoraVM.Foundation

-- A signed overflow is as undefined as a fault.
inductive Undefined where
  | fault (fault : Fault)
  | intOverflow
  deriving DecidableEq, Repr

abbrev Checked (α : Type) := Except Undefined α

def InInt (n : Int) : Prop := -2147483648 ≤ n ∧ n ≤ 2147483647

instance (n : Int) : Decidable (InInt n) := inferInstanceAs (Decidable (_ ∧ _))

def checkedInt (n : Int) : Checked Int := if InInt n then .ok n else .error .intOverflow

-- An int that is never negative.
def checkedNat (n : Nat) : Checked Nat :=
  if n ≤ 2147483647 then .ok n else .error .intOverflow

def Checked.of {α : Type} (x : Outcome α) : Checked α := x.mapError .fault

section Checked

variable {α : Type} {n : Nat}

theorem checkedOf_eq_ok {x : Outcome α} {a : α} : Checked.of x = .ok a ↔ x = .ok a := by
  cases x with
  | error fault => exact iff_of_false nofun nofun
  | ok b => simp [Checked.of, Except.mapError]

theorem bind_of_checked {β : Type} {x : Outcome α} {f : α → β} {b : β}
    (h : (Checked.of x >>= fun a => .ok (f a)) = .ok b) : (x >>= fun a => .ok (f a)) = .ok b := by
  obtain ⟨a, hx, hdone⟩ := Outcome.bind_eq_ok.mp h
  obtain rfl := Except.ok.inj hdone
  simp only [bind, Except.bind, checkedOf_eq_ok.mp hx]

theorem checkedNat_ok (h : n ≤ 2147483647) : checkedNat n = .ok n := if_pos h

theorem checkedNat_overflow (h : 2147483647 < n) : checkedNat n = .error .intOverflow :=
  if_neg (Nat.not_le.mpr h)

def Completes (call : Nat → Checked (Option α)) (r : α) : Prop :=
  ∃ enough, ∀ fuel, enough ≤ fuel → call fuel = .ok (some r)

end Checked

end ZoraVM.Foundation
