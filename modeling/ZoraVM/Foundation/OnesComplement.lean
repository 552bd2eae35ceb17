import Mathlib.Algebra.BigOperators.Group.List.Basic
import Mathlib.Tactic.Ring

namespace ZoraVM.Foundation

section OnesComplement

variable {m a b n : Nat} {l : List Nat}

-- Addition with the carry brought back in at the low end; `m` is the word of all ones.
def carryAdd (m a b : Nat) : Nat := if a + b ≤ m then a + b else a + b - m

def carrySum (m : Nat) (l : List Nat) : Nat := l.foldl (carryAdd m) 0

-- The word that a number comes to when its carries are brought back until none is left.
def wrapAround (m n : Nat) : Nat := if n = 0 then 0 else (n - 1) % m + 1

theorem wrapAround_le (hm : 0 < m) (n : Nat) : wrapAround m n ≤ m := by
  rw [wrapAround]
  split
  · exact Nat.zero_le m
  · exact Nat.mod_lt _ hm

theorem wrapAround_of_le (h : n ≤ m) : wrapAround m n = n := by
  rw [wrapAround]
  split
  · next hn => exact hn.symm
  · next hn => rw [Nat.mod_eq_of_lt (by omega), Nat.sub_add_cancel (by omega)]

theorem wrapAround_pos (hn : 0 < n) : 0 < wrapAround m n := by
  rw [wrapAround, if_neg (by omega)]
  exact Nat.succ_pos _

theorem wrapAround_add_mul (hn : 0 < n) (k : Nat) :
    wrapAround m (n + k * m) = wrapAround m n := by
  rw [wrapAround, wrapAround, if_neg (by omega), if_neg (by omega)]
  have hsub : n + k * m - 1 = n - 1 + k * m := by omega
  rw [hsub, Nat.add_mul_mod_self_right]

theorem eq_wrapAround_add_mul (hn : 0 < n) : ∃ k, n = wrapAround m n + k * m := by
  refine ⟨(n - 1) / m, ?_⟩
  have hdiv := Nat.mod_add_div (n - 1) m
  rw [wrapAround, if_neg (by omega), Nat.mul_comm]
  omega

theorem wrapAround_add_left (a b : Nat) :
    wrapAround m (wrapAround m a + b) = wrapAround m (a + b) := by
  rcases Nat.eq_zero_or_pos a with rfl | ha
  · rfl
  · obtain ⟨k, hk⟩ := eq_wrapAround_add_mul (m := m) ha
    have hpos : 0 < wrapAround m a + b := Nat.add_pos_left (wrapAround_pos ha) b
    have hsum : a + b = wrapAround m a + b + k * m := by omega
    rw [hsum, wrapAround_add_mul hpos]

theorem carryAdd_eq (ha : a ≤ m) (hb : b ≤ m) :
    carryAdd m a b = wrapAround m (a + b) := by
  rw [carryAdd]
  split
  · next hle => rw [wrapAround_of_le hle]
  · next hgt =>
    have hsplit : a + b = a + b - m + 1 * m := by omega
    rw [hsplit, wrapAround_add_mul (by omega), wrapAround_of_le (by omega)]
    omega

theorem foldl_carryAdd (hm : 0 < m) (hl : ∀ x ∈ l, x ≤ m) (ha : a ≤ m) :
    l.foldl (carryAdd m) a = wrapAround m (a + l.sum) := by
  induction l generalizing a with
  | nil => exact (wrapAround_of_le ha).symm
  | cons x xs ih =>
    have hx := hl x List.mem_cons_self
    have hstep := carryAdd_eq ha hx
    rw [List.foldl_cons, hstep, ih (fun y hy => hl y (List.mem_cons_of_mem _ hy))
      (wrapAround_le hm _), wrapAround_add_left, List.sum_cons, Nat.add_assoc]

theorem carrySum_eq (hm : 0 < m) (hl : ∀ x ∈ l, x ≤ m) : carrySum m l = wrapAround m l.sum := by
  rw [carrySum, foldl_carryAdd hm hl (Nat.zero_le m), Nat.zero_add]

theorem wrapAround_fold (n : Nat) :
    wrapAround m (n % (m + 1) + n / (m + 1)) = wrapAround m n := by
  have hdiv := Nat.mod_add_div n (m + 1)
  rcases Nat.eq_zero_or_pos n with rfl | hn
  · simp
  · have hpos : 0 < n % (m + 1) + n / (m + 1) := by
      rcases Nat.eq_zero_or_pos (n / (m + 1)) with hzero | hpos
      · rw [hzero, Nat.mul_zero] at hdiv
        omega
      · omega
    have hsum : n = n % (m + 1) + n / (m + 1) + n / (m + 1) * m := by
      calc n = n % (m + 1) + (m + 1) * (n / (m + 1)) := hdiv.symm
        _ = n % (m + 1) + n / (m + 1) + n / (m + 1) * m := by ring
    conv_rhs => rw [hsum]
    exact (wrapAround_add_mul hpos _).symm

theorem wrapAround_complement (hm : 0 < m) (n : Nat) :
    wrapAround m (n + (m - wrapAround m n)) = m := by
  have hle := wrapAround_le hm n
  rw [← wrapAround_add_left, Nat.add_sub_cancel' hle, wrapAround_of_le le_rfl]

theorem add_complement_le {q : Nat} (hq : 0 < q) (hn : n ≤ q * m) :
    n + (m - wrapAround m n) ≤ q * m := by
  rcases Nat.eq_zero_or_pos n with rfl | hpos
  · exact (Nat.zero_add m).trans_le (Nat.le_mul_of_pos_left m hq)
  · obtain ⟨k, hk⟩ := eq_wrapAround_add_mul (m := m) hpos
    have hword := wrapAround_pos (m := m) hpos
    have hkq : k < q := Nat.lt_of_mul_lt_mul_right (a := m) (by omega)
    have hstep : (k + 1) * m ≤ q * m := Nat.mul_le_mul_right m hkq
    rw [Nat.succ_mul] at hstep
    omega

end OnesComplement

end ZoraVM.Foundation
