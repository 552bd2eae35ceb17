import ZoraVM.Foundation.Location

namespace ZoraVM.Foundation

section Names

variable {κ : Type} [DecidableEq κ] (here up : κ)

def enterName (base : List κ) (name : κ) : List κ :=
  if name = here then base else if name = up then base.dropLast else base ++ [name]

-- Where the names lead from `base`, outermost first, with `here` and `up` given their meaning.
def lexically (base names : List κ) : List κ := names.foldl (enterName here up) base

variable {here up} {base names : List κ} {name : κ}

theorem lexically_cons :
    lexically here up base (name :: names) = lexically here up (enterName here up base name) names :=
  rfl

theorem length_enterName_le (here up : κ) (base : List κ) (name : κ) :
    (enterName here up base name).length ≤ base.length + 1 := by
  rw [enterName]
  split
  · exact Nat.le_succ _
  · split
    · rw [List.length_dropLast]
      omega
    · rw [List.length_append, List.length_singleton]

theorem length_lexically_le (here up : κ) (base names : List κ) :
    (lexically here up base names).length ≤ base.length + names.length := by
  induction names generalizing base with
  | nil => exact Nat.le_refl _
  | cons name names ih =>
    have hone := length_enterName_le here up base name
    have hrest := ih (enterName here up base name)
    rw [lexically_cons, List.length_cons]
    omega

theorem lexically_eq_append_iff :
    lexically here up base names = base ++ names ↔ here ∉ names ∧ up ∉ names := by
  induction names generalizing base with
  | nil => simp [lexically]
  | cons name names ih =>
    rw [lexically_cons]
    by_cases hdots : name = here ∨ name = up
    · have hshort : (enterName here up base name).length ≤ base.length := by
        rw [enterName]
        split
        · exact Nat.le_refl _
        · next hno =>
          rw [if_pos (hdots.resolve_left hno), List.length_dropLast]
          omega
      refine iff_of_false ?_ ?_
      · intro heq
        have hle := length_lexically_le here up (enterName here up base name) names
        rw [heq, List.length_append, List.length_cons] at hle
        omega
      · rintro ⟨hhere, hup⟩
        rcases hdots with rfl | rfl
        · exact hhere List.mem_cons_self
        · exact hup List.mem_cons_self
    · obtain ⟨hhere, hup⟩ := not_or.mp hdots
      have hstep : enterName here up base name = base ++ [name] := by
        rw [enterName, if_neg hhere, if_neg hup]
      have hsplit : base ++ name :: names = base ++ [name] ++ names := by simp
      rw [hstep, hsplit, ih]
      simp [Ne.symm hhere, Ne.symm hup]

end Names

section Absolute

variable {names : List Bytes} {name : Bytes}

def absolutePath (names : List Bytes) : Bytes :=
  if names = [] then [slash] else names.flatMap (slash :: ·)

theorem flatMap_concat (names : List Bytes) (name : Bytes) :
    (names ++ [name]).flatMap (slash :: ·) = names.flatMap (slash :: ·) ++ slash :: name := by simp

theorem absolutePath_concat (names : List Bytes) (name : Bytes) :
    absolutePath (names ++ [name]) = names.flatMap (slash :: ·) ++ slash :: name := by
  rw [absolutePath, if_neg (by simp), flatMap_concat]

theorem tokens_flatMap (h : ∀ c ∈ names, c ≠ [] ∧ slash ∉ c) :
    tokens slash (names.flatMap (slash :: ·)) = names := by
  induction names using List.reverseRecOn with
  | nil => rfl
  | append_singleton names name ih =>
    obtain ⟨hne, hslash⟩ := h name (by simp)
    rw [flatMap_concat, tokens_append_cons, ih fun c hc => h c (by simp [hc]),
      tokens_of_not_mem hslash hne]

theorem tokens_absolutePath (h : ∀ c ∈ names, c ≠ [] ∧ slash ∉ c) :
    tokens slash (absolutePath names) = names := by
  rw [absolutePath]
  split
  · next hnil =>
    rw [hnil]
    rfl
  · exact tokens_flatMap h

theorem head_flatMap (hne : names ≠ []) : (names.flatMap (slash :: ·)).head? = some slash := by
  cases names with
  | nil => exact absurd rfl hne
  | cons name names => rfl

theorem head_absolutePath (names : List Bytes) : (absolutePath names).head? = some slash := by
  rw [absolutePath]
  split
  · rfl
  · next hne => exact head_flatMap hne

end Absolute

end ZoraVM.Foundation
