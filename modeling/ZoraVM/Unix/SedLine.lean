import ZoraVM.Unix.TextProc

namespace ZoraVM.Unix

open Foundation

section Steps

variable {pattern replacement src out : Bytes} {flags : SedFlags} {c : UInt8} {fuel k : Nat}

abbrev Chosen (flags : SedFlags) (k : Nat) : Prop :=
  flags.numeric = 0 ∨ k = flags.numeric ∨ flags.global = true

abbrev Final (flags : SedFlags) (k : Nat) : Prop :=
  flags.global = false ∧ flags.numeric = 0 ∨ 0 < flags.numeric ∧ k = flags.numeric

theorem sedLineLoop_full (hfull : lineOutputSize - 1 ≤ out.length) :
    sedLineLoop pattern replacement flags (fuel + 1) src out k = some (src, out) := by
  cases src with
  | nil => rfl
  | cons c src => rw [sedLineLoop, if_pos hfull]

theorem sedLineLoop_cons (pattern replacement : Bytes) (flags : SedFlags) (fuel k : Nat)
    (hroom : out.length < lineOutputSize - 1) (c : UInt8) (src : Bytes) :
    (matchesHere flags pattern (c :: src) = false ∧
      sedLineLoop pattern replacement flags (fuel + 1) (c :: src) out k =
        sedLineLoop pattern replacement flags fuel src (out ++ [c]) k) ∨
    (matchesHere flags pattern (c :: src) = true ∧ ¬ Chosen flags (k + 1) ∧
      sedLineLoop pattern replacement flags (fuel + 1) (c :: src) out k =
        sedLineLoop pattern replacement flags fuel src (out ++ [c]) (k + 1)) ∨
    (matchesHere flags pattern (c :: src) = true ∧ Chosen flags (k + 1) ∧
      lineOutputSize - 1 < out.length + replacement.length ∧
      sedLineLoop pattern replacement flags (fuel + 1) (c :: src) out k = some (c :: src, out)) ∨
    (matchesHere flags pattern (c :: src) = true ∧ Chosen flags (k + 1) ∧
      out.length + replacement.length ≤ lineOutputSize - 1 ∧ Final flags (k + 1) ∧
      sedLineLoop pattern replacement flags (fuel + 1) (c :: src) out k =
        some ((c :: src).drop pattern.length, out ++ replacement)) ∨
    (matchesHere flags pattern (c :: src) = true ∧ Chosen flags (k + 1) ∧
      out.length + replacement.length ≤ lineOutputSize - 1 ∧ ¬ Final flags (k + 1) ∧
      sedLineLoop pattern replacement flags (fuel + 1) (c :: src) out k =
        sedLineLoop pattern replacement flags fuel ((c :: src).drop pattern.length)
          (out ++ replacement) (k + 1)) := by
  have hroom' : ¬ lineOutputSize - 1 ≤ out.length := by omega
  by_cases hmatch : matchesHere flags pattern (c :: src) = true
  · right
    by_cases hchosen : Chosen flags (k + 1)
    · right
      by_cases hfit : out.length + replacement.length ≤ lineOutputSize - 1
      · right
        have hfit' : replacement.length ≤ lineOutputSize - out.length - 1 := by omega
        by_cases hfinal : Final flags (k + 1)
        · refine .inl ⟨hmatch, hchosen, hfit, hfinal, ?_⟩
          rw [sedLineLoop, if_neg hroom', if_pos hmatch]
          simp only
          rw [if_pos hchosen, if_pos hfit']
          rcases hfinal with ⟨hglobal, hnumeric⟩ | hlast
          · rw [if_pos (by simp [hglobal, hnumeric])]
          · rw [if_pos hlast, ite_self]
        · refine .inr ⟨hmatch, hchosen, hfit, hfinal, ?_⟩
          obtain ⟨hmany, hlast⟩ := not_or.mp hfinal
          rw [sedLineLoop, if_neg hroom', if_pos hmatch]
          simp only
          rw [if_pos hchosen, if_pos hfit', if_neg (by simpa using hmany), if_neg hlast]
      · refine .inl ⟨hmatch, hchosen, by omega, ?_⟩
        rw [sedLineLoop, if_neg hroom', if_pos hmatch]
        simp only
        rw [if_pos hchosen, if_neg (by omega)]
    · refine .inl ⟨hmatch, hchosen, ?_⟩
      rw [sedLineLoop, if_neg hroom', if_pos hmatch]
      simp only
      rw [if_neg hchosen]
  · refine .inl ⟨by simpa using hmatch, ?_⟩
    rw [sedLineLoop, if_neg hroom', if_neg hmatch]

theorem more_of_not_chosen (hcount : 0 < flags.numeric → k < flags.numeric)
    (h : ¬ Chosen flags (k + 1)) (hpos : 0 < flags.numeric) : k + 1 < flags.numeric := by
  have hne : k + 1 ≠ flags.numeric := fun heq => h (.inr (.inl heq))
  have hlt := hcount hpos
  omega

theorem more_of_not_final (hcount : 0 < flags.numeric → k < flags.numeric)
    (h : ¬ Final flags (k + 1)) (hpos : 0 < flags.numeric) : k + 1 < flags.numeric := by
  have hne : k + 1 ≠ flags.numeric := fun heq => h (.inr ⟨hpos, heq⟩)
  have hlt := hcount hpos
  omega

theorem final_of_chosen (hlocal : flags.global = false) (h : Chosen flags (k + 1)) :
    Final flags (k + 1) := by
  rcases h with hzero | hlast | hglobal
  · exact .inl ⟨hlocal, hzero⟩
  · exact .inr ⟨by omega, hlast⟩
  · rw [hlocal] at hglobal
    cases hglobal

-- The loop as its turns, for a line of which src is left, out is written and k matches are counted.
inductive LineRun (pattern replacement : Bytes) (flags : SedFlags) :
    Bytes → Bytes → Nat → Bytes × Bytes → Prop
  | ended {out : Bytes} {k : Nat} : LineRun pattern replacement flags [] out k ([], out)
  | full {src out : Bytes} {k : Nat} : lineOutputSize - 1 ≤ out.length →
      LineRun pattern replacement flags src out k (src, out)
  | copied {c : UInt8} {src out : Bytes} {k : Nat} {r : Bytes × Bytes} :
      out.length < lineOutputSize - 1 → matchesHere flags pattern (c :: src) = false →
      LineRun pattern replacement flags src (out ++ [c]) k r →
      LineRun pattern replacement flags (c :: src) out k r
  | passed {c : UInt8} {src out : Bytes} {k : Nat} {r : Bytes × Bytes} :
      out.length < lineOutputSize - 1 → matchesHere flags pattern (c :: src) = true →
      ¬ Chosen flags (k + 1) → LineRun pattern replacement flags src (out ++ [c]) (k + 1) r →
      LineRun pattern replacement flags (c :: src) out k r
  | crowded {c : UInt8} {src out : Bytes} {k : Nat} :
      matchesHere flags pattern (c :: src) = true → Chosen flags (k + 1) →
      lineOutputSize - 1 < out.length + replacement.length →
      LineRun pattern replacement flags (c :: src) out k (c :: src, out)
  | last {c : UInt8} {src out : Bytes} {k : Nat} :
      matchesHere flags pattern (c :: src) = true → Chosen flags (k + 1) →
      out.length + replacement.length ≤ lineOutputSize - 1 → Final flags (k + 1) →
      LineRun pattern replacement flags (c :: src) out k
        ((c :: src).drop pattern.length, out ++ replacement)
  | replaced {c : UInt8} {src out : Bytes} {k : Nat} {r : Bytes × Bytes} :
      matchesHere flags pattern (c :: src) = true → Chosen flags (k + 1) →
      out.length + replacement.length ≤ lineOutputSize - 1 → ¬ Final flags (k + 1) →
      LineRun pattern replacement flags ((c :: src).drop pattern.length) (out ++ replacement) (k + 1) r →
      LineRun pattern replacement flags (c :: src) out k r

theorem lineRun_of_loop {r : Bytes × Bytes}
    (h : sedLineLoop pattern replacement flags fuel src out k = some r) :
    LineRun pattern replacement flags src out k r := by
  induction fuel generalizing src out k with
  | zero => cases h
  | succ fuel ih =>
    rcases Nat.lt_or_ge out.length (lineOutputSize - 1) with hroom | hfull
    · cases src with
      | nil => exact Option.some.inj h ▸ .ended
      | cons c src =>
        rcases sedLineLoop_cons pattern replacement flags fuel k hroom c src with
          ⟨hmatch, hturn⟩ | ⟨hmatch, hchosen, hturn⟩ | ⟨hmatch, hchosen, hlong, hturn⟩ |
          ⟨hmatch, hchosen, hfit, hfinal, hturn⟩ | ⟨hmatch, hchosen, hfit, hfinal, hturn⟩ <;>
          rw [hturn] at h
        · exact .copied hroom hmatch (ih h)
        · exact .passed hroom hmatch hchosen (ih h)
        · exact Option.some.inj h ▸ .crowded hmatch hchosen hlong
        · exact Option.some.inj h ▸ .last hmatch hchosen hfit hfinal
        · exact .replaced hmatch hchosen hfit hfinal (ih h)
    · rw [sedLineLoop_full hfull] at h
      exact Option.some.inj h ▸ .full hfull

end Steps

end ZoraVM.Unix
