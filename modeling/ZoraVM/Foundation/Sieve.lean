import Mathlib.Data.Nat.Prime.Basic
import Mathlib.Tactic

namespace ZoraVM.Foundation

section Sieve

-- What is left of the numbers once every prime below d has struck out its multiples from its square
-- on.
def Sifted (d j : Nat) : Prop := 2 ≤ j ∧ ∀ p, p.Prime → p < d → p ∣ j → j < p * p

variable {d j : Nat}

theorem sifted_two : Sifted 2 j ↔ 2 ≤ j :=
  ⟨And.left, fun h => ⟨h, fun _ hp hlt _ => absurd hp.two_le (Nat.not_le.mpr hlt)⟩⟩

theorem exists_prime_factor (h₂ : 2 ≤ j) (hj : ¬ j.Prime) : ∃ p, p.Prime ∧ p ∣ j ∧ p * p ≤ j := by
  refine ⟨j.minFac, Nat.minFac_prime (by omega), Nat.minFac_dvd j, ?_⟩
  have hsq := Nat.minFac_sq_le_self (by omega) hj
  rwa [Nat.pow_two] at hsq

theorem sifted_iff_prime (h : j < d * d) : Sifted d j ↔ j.Prime := by
  constructor
  · rintro ⟨h₂, hleft⟩
    by_contra hj
    obtain ⟨p, hp, hdvd, hsq⟩ := exists_prime_factor h₂ hj
    have hlt : p < d := Nat.mul_self_lt_mul_self_iff.mp (Nat.lt_of_le_of_lt hsq h)
    exact absurd (hleft p hp hlt hdvd) (Nat.not_lt.mpr hsq)
  · intro hj
    refine ⟨hj.two_le, fun p hp _ hdvd => ?_⟩
    obtain rfl := (Nat.prime_dvd_prime_iff_eq hp hj).mp hdvd
    exact Nat.lt_mul_self_iff.mpr hp.one_lt

theorem sifted_self (h₂ : 2 ≤ d) : Sifted d d ↔ d.Prime :=
  sifted_iff_prime (Nat.lt_mul_self_iff.mpr h₂)

theorem sifted_succ_of_prime (hd : d.Prime) :
    Sifted (d + 1) j ↔ Sifted d j ∧ ¬ (d * d ≤ j ∧ d ∣ j) := by
  constructor
  · rintro ⟨h₂, hleft⟩
    refine ⟨⟨h₂, fun p hp hlt => hleft p hp (Nat.lt_succ_of_lt hlt)⟩, fun ⟨hsq, hdvd⟩ => ?_⟩
    exact absurd (hleft d hd (Nat.lt_succ_self d) hdvd) (Nat.not_lt.mpr hsq)
  · rintro ⟨⟨h₂, hleft⟩, hstruck⟩
    refine ⟨h₂, fun p hp hlt hdvd => ?_⟩
    rcases Nat.lt_succ_iff_lt_or_eq.mp hlt with hlt | rfl
    · exact hleft p hp hlt hdvd
    · exact Nat.not_le.mp fun hsq => hstruck ⟨hsq, hdvd⟩

theorem sifted_succ_of_not_prime (hd : ¬ d.Prime) : Sifted (d + 1) j ↔ Sifted d j := by
  refine and_congr_right fun _ => forall₂_congr fun p hp => ?_
  have hne : p ≠ d := fun heq => hd (heq ▸ hp)
  rw [Nat.lt_succ_iff_lt_or_eq, or_iff_left hne]

end Sieve

end ZoraVM.Foundation
