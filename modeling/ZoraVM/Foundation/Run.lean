import Mathlib.Tactic

namespace ZoraVM.Foundation

universe u v

inductive Run {σ : Type u} {ι : Type v} (step : σ → ι → Option σ) (allowed : σ → ι → Prop)
    (s₀ : σ) : List ι → σ → Prop
  | start : Run step allowed s₀ [] s₀
  | call {is : List ι} {s s' : σ} {i : ι} : Run step allowed s₀ is s → allowed s i →
      step s i = some s' → Run step allowed s₀ (is ++ [i]) s'

def exec {σ : Type u} {ι : Type v} (step : σ → ι → Option σ) : σ → List ι → Option σ
  | s, [] => some s
  | s, i :: is => (step s i).bind (fun s' => exec step s' is)

def guarded {σ : Type u} {ι : Type v} (step : σ → ι → Option σ) (allowed : σ → ι → Bool) :
    σ → ι → Option σ :=
  fun s i => if allowed s i then step s i else none

namespace Run

variable {σ : Type u} {ι : Type v} {step : σ → ι → Option σ} {allowed allowed' : σ → ι → Prop}
variable {s₀ s t : σ} {is js : List ι}

theorem invariant {P : σ → Prop} (h₀ : P s₀)
    (hstep : ∀ s i s', P s → allowed s i → step s i = some s' → P s')
    (h : Run step allowed s₀ is s) : P s := by
  induction h with
  | start => exact h₀
  | call _ ha hs ih => exact hstep _ _ _ ih ha hs

theorem history {P : List ι → σ → Prop} (h₀ : P [] s₀)
    (hstep : ∀ is s i s', P is s → allowed s i → step s i = some s' → P (is ++ [i]) s')
    (h : Run step allowed s₀ is s) : P is s := by
  induction h with
  | start => exact h₀
  | call _ ha hs ih => exact hstep _ _ _ _ ih ha hs

theorem mono (hsub : ∀ s i, allowed s i → allowed' s i) (h : Run step allowed s₀ is s) :
    Run step allowed' s₀ is s := by
  induction h with
  | start => exact .start
  | call _ ha hs ih => exact .call ih (hsub _ _ ha) hs

theorem allowed_iff {P : σ → Prop} (h₀ : P s₀)
    (hiff : ∀ s i s', P s → step s i = some s' → (allowed s i ↔ allowed' s i))
    (hstep : ∀ s i s', P s → allowed s i → step s i = some s' → P s') :
    Run step allowed s₀ is s ↔ Run step allowed' s₀ is s := by
  constructor
  · intro h
    induction h with
    | start => exact .start
    | call hrun ha hs ih => exact .call ih ((hiff _ _ _ (hrun.invariant h₀ hstep) hs).mp ha) hs
  · intro h
    induction h with
    | start => exact .start
    | call _ ha hs ih => exact .call ih ((hiff _ _ _ (ih.invariant h₀ hstep) hs).mpr ha) hs

theorem restrict {Q : ι → Prop} (h : Run step allowed s₀ is s) (hQ : ∀ i ∈ is, Q i) :
    Run step (fun s i => allowed s i ∧ Q i) s₀ is s := by
  induction h with
  | start => exact .start
  | call _ ha hs ih =>
    refine .call (ih fun i hi => hQ i (List.mem_append_left _ hi)) ⟨ha, hQ _ ?_⟩ hs
    exact List.mem_append_right _ List.mem_cons_self

theorem append (h : Run step allowed s₀ is s) (h' : Run step allowed s js t) :
    Run step allowed s₀ (is ++ js) t := by
  induction h' with
  | start => simpa using h
  | call _ ha hs ih =>
    rw [← List.append_assoc]
    exact .call ih ha hs

theorem single {i : ι} (ha : allowed s i) (hs : step s i = some t) : Run step allowed s [i] t :=
  .call .start ha hs

theorem of_exec {allowed : σ → ι → Bool} (h : exec (guarded step allowed) s is = some t) :
    Run step (fun s i => allowed s i = true) s is t := by
  induction is generalizing s with
  | nil =>
    obtain rfl := Option.some.inj h
    exact .start
  | cons i is ih =>
    obtain ⟨s', hs, hrest⟩ := Option.bind_eq_some_iff.mp h
    by_cases ha : allowed s i = true
    · rw [guarded, if_pos ha] at hs
      have hone : Run step (fun s i => allowed s i = true) s [i] s' := single ha hs
      exact hone.append (ih hrest)
    · simp [guarded, ha] at hs

theorem of_exec_isSome {allowed : σ → ι → Bool}
    (h : (exec (guarded step allowed) s is).isSome = true) :
    Run step (fun s i => allowed s i = true) s is ((exec (guarded step allowed) s is).getD s) := by
  obtain ⟨t, ht⟩ := Option.isSome_iff_exists.mp h
  rw [ht]
  exact of_exec ht

end Run

end ZoraVM.Foundation
