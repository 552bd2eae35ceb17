import ZoraVM.Shell.Variables

namespace ZoraVM.Shell

open Foundation

section Reference

def openBrace : UInt8 := 123
def closeBrace : UInt8 := 125

def variableAt (src : Bytes) : Option (Bytes × Bytes) :=
  if src.head? = some openBrace then
    let name := src.tail.takeWhile isNameByte
    let rest := src.tail.drop name.length
    if name ≠ [] ∧ rest.head? = some closeBrace then some (name, rest.tail) else none
  else
    let name := src.takeWhile isNameByte
    if name ≠ [] then some (name, src.drop name.length) else none

theorem length_variableAt {src name rest : Bytes} (h : variableAt src = some (name, rest)) :
    rest.length ≤ src.length := by
  rw [variableAt] at h
  split at h
  · dsimp only at h
    split at h
    · obtain ⟨_, rfl⟩ := Prod.mk.inj (Option.some.inj h)
      simp only [List.length_tail, List.length_drop]
      omega
    · cases h
  · dsimp only at h
    split at h
    · obtain ⟨_, rfl⟩ := Prod.mk.inj (Option.some.inj h)
      simp
    · cases h

-- The text with every $NAME and ${NAME} replaced by its value, or by nothing.
def expansion (env : EnvTable) : Bytes → Bytes
  | [] => []
  | c :: src =>
    if c = dollar then
      match h : variableAt src with
      | some (name, rest) =>
        have := length_variableAt h
        (getEnvVar env name).getD [] ++ expansion env rest
      | none => c :: expansion env src
    else c :: expansion env src
termination_by src => src.length

def ShortNames (text : Bytes) : Prop :=
  ∀ pre src, text = pre ++ dollar :: src →
    ∃ name rest, variableAt src = some (name, rest) ∧ name.length < maxVarName

def ExpandsFaithfully (text : Bytes) : Prop :=
  ∀ sets outputSize, 0 < outputSize →
    (expandVariables (envAfter sets) text outputSize).length + 1 ≤ outputSize ∧
      ((expansion (envAfter sets) text).length + 1 ≤ outputSize →
        expandVariables (envAfter sets) text outputSize = expansion (envAfter sets) text)

end Reference

section Scan

variable {env : EnvTable} {src name rest text : Bytes}

theorem length_variableName (src : Bytes) : (variableName src).2.length ≤ src.length := by
  unfold variableName
  split
  · dsimp only
    split
    · simp only [List.length_tail, List.length_drop, List.length_cons]
      omega
    · simp only [List.length_drop, List.length_cons]
      omega
  · simp

def scanned (env : EnvTable) : Bytes → Bytes
  | [] => []
  | c :: src =>
    if c = dollar then
      have := length_variableName src
      (getEnvVar env (variableName src).1).getD [] ++ scanned env (variableName src).2
    else c :: scanned env src
termination_by src => src.length

theorem length_expandFrom_le (env : EnvTable) (fuel : Nat) (text : Bytes) (remaining : Nat) :
    (expandFrom env fuel text remaining).length ≤ remaining := by
  induction fuel generalizing text remaining with
  | zero => simp [expandFrom]
  | succ fuel ih =>
    cases remaining with
    | zero => simp [expandFrom]
    | succ remaining =>
      cases text with
      | nil => simp [expandFrom]
      | cons c src =>
        rw [expandFrom]
        split
        · dsimp only
          split
          · next value _ =>
            split
            · next hfit =>
              have hrest := ih (variableName src).2 (remaining + 1 - value.length)
              rw [List.length_append]
              omega
            · exact ih _ _
          · exact ih _ _
        · rw [List.length_cons]
          exact Nat.succ_le_succ (ih src remaining)

theorem expandFrom_scanned {fuel remaining : Nat} (hfuel : text.length ≤ fuel)
    (hfit : (scanned env text).length ≤ remaining) :
    expandFrom env fuel text remaining = scanned env text := by
  induction fuel generalizing text remaining with
  | zero =>
    obtain rfl := List.length_eq_zero_iff.mp (Nat.le_zero.mp hfuel)
    rw [scanned]
    cases remaining <;> rfl
  | succ fuel ih =>
    cases remaining with
    | zero =>
      rw [List.length_eq_zero_iff.mp (Nat.le_zero.mp hfit)]
      rfl
    | succ remaining =>
      cases text with
      | nil =>
        rw [scanned]
        rfl
      | cons c src =>
        rw [List.length_cons] at hfuel
        rw [scanned] at hfit ⊢
        rw [expandFrom]
        by_cases hc : c = dollar
        · have hrest := length_variableName src
          rw [if_pos hc] at hfit ⊢
          rw [if_pos (show c = 36 from hc)]
          dsimp only
          rw [lookup_eq_getEnvVar]
          cases hvalue : getEnvVar env (variableName src).1 with
          | none =>
            rw [hvalue] at hfit
            exact ih (by omega) hfit
          | some value =>
            rw [hvalue, Option.getD_some, List.length_append] at hfit
            dsimp only
            rw [if_pos (by omega), ih (by omega) (by omega), Option.getD_some]
        · rw [if_neg hc] at hfit ⊢
          rw [if_neg (show ¬ c = 36 from hc), ih (by omega)]
          exact Nat.le_of_succ_le_succ hfit

end Scan

section Names

variable {env : EnvTable} {src name rest text lead : Bytes} {c : UInt8}

theorem not_dollar_of_nameByte (h : isNameByte c = true) : c ≠ dollar := by
  rintro rfl
  cases h

theorem not_brace_of_nameByte (h : isNameByte c = true) : c ≠ closeBrace := by
  rintro rfl
  cases h

theorem takeWhile_append_drop (p : UInt8 → Bool) (l : Bytes) :
    l.takeWhile p ++ l.drop (l.takeWhile p).length = l :=
  List.prefix_iff_eq_append.mp (List.takeWhile_prefix p)

theorem variableAt_cases (h : variableAt src = some (name, rest)) :
    name ≠ [] ∧ (∀ c ∈ name, isNameByte c = true) ∧
      ((src.head? ≠ some openBrace ∧ src.takeWhile isNameByte = name ∧ src = name ++ rest) ∨
        src = openBrace :: (name ++ closeBrace :: rest)) := by
  have hbytes : ∀ l : Bytes, ∀ c ∈ l.takeWhile isNameByte, isNameByte c = true := fun l c hc =>
    List.mem_takeWhile_imp hc
  rw [variableAt] at h
  split at h
  · next hbrace =>
    obtain ⟨inner, rfl⟩ := List.head?_eq_some_iff.mp hbrace
    dsimp only at h
    split at h
    · next hclosed =>
      obtain ⟨rfl, rfl⟩ := Prod.mk.inj (Option.some.inj h)
      rw [List.tail_cons] at hclosed ⊢
      obtain ⟨behind, hbehind⟩ := List.head?_eq_some_iff.mp hclosed.2
      refine ⟨hclosed.1, hbytes inner, .inr ?_⟩
      have hsplit := takeWhile_append_drop isNameByte inner
      rw [hbehind] at hsplit ⊢
      rw [List.tail_cons, hsplit]
    · cases h
  · next hplain =>
    dsimp only at h
    split at h
    · next hne =>
      obtain ⟨rfl, rfl⟩ := Prod.mk.inj (Option.some.inj h)
      exact ⟨hne, hbytes src, .inl ⟨hplain, rfl, (takeWhile_append_drop isNameByte src).symm⟩⟩
    · cases h

theorem variableName_plain (hplain : src.head? ≠ some openBrace) :
    variableName src = ((src.takeWhile isNameByte).take 63,
      src.drop ((src.takeWhile isNameByte).take 63).length) := by
  unfold variableName
  split
  · exact absurd rfl hplain
  · rw [List.take_takeWhile]
    rfl

theorem variableName_braced (hname : ∀ c ∈ name, isNameByte c = true) :
    variableName (openBrace :: (name ++ closeBrace :: rest)) =
      (name.take 63, if name.length < maxVarName then rest else name.drop 63 ++ closeBrace :: rest) := by
  have htaken : ((name ++ closeBrace :: rest).take 63).takeWhile (· ≠ 125) = name.take 63 := by
    have hall : ∀ c ∈ name, decide (c ≠ 125) = true := fun c hc =>
      decide_eq_true (not_brace_of_nameByte (hname c hc))
    rw [← List.take_takeWhile, List.takeWhile_append_of_pos hall]
    simp [closeBrace]
  have hread : variableName (openBrace :: (name ++ closeBrace :: rest)) =
      (((name ++ closeBrace :: rest).take 63).takeWhile (· ≠ 125),
        if ((name ++ closeBrace :: rest).drop
            (((name ++ closeBrace :: rest).take 63).takeWhile (· ≠ 125)).length).head? = some 125 then
          ((name ++ closeBrace :: rest).drop
            (((name ++ closeBrace :: rest).take 63).takeWhile (· ≠ 125)).length).tail
        else (name ++ closeBrace :: rest).drop
            (((name ++ closeBrace :: rest).take 63).takeWhile (· ≠ 125)).length) := rfl
  rw [hread, htaken, List.length_take]
  by_cases hshort : name.length < maxVarName
  · have hall : min 63 name.length = name.length := Nat.min_eq_right (Nat.le_of_lt_succ hshort)
    rw [hall, List.drop_left, if_pos hshort]
    exact congrArg _ (if_pos rfl)
  · have hlong : 64 ≤ name.length := Nat.le_of_not_lt hshort
    have hall : min 63 name.length = 63 := Nat.min_eq_left (by omega)
    have hbehind : (name ++ closeBrace :: rest).drop 63 = name.drop 63 ++ closeBrace :: rest :=
      List.drop_append_of_le_length (by omega)
    obtain ⟨b, left, hleft⟩ := List.exists_cons_of_ne_nil (l := name.drop 63)
      (by rw [ne_eq, List.drop_eq_nil_iff]; omega)
    have hb : b ≠ closeBrace := not_brace_of_nameByte
      (hname b (List.mem_of_mem_drop (hleft ▸ List.mem_cons_self)))
    rw [hall, hbehind, if_neg hshort, hleft, List.cons_append, List.head?_cons, if_neg]
    exact fun hb' => hb (Option.some.inj hb')

theorem variableName_at (h : variableAt src = some (name, rest)) :
    (name.length < maxVarName → variableName src = (name, rest)) ∧
      (maxVarName ≤ name.length → ∃ b left, (∀ c ∈ b :: left, c ≠ dollar) ∧
        (variableName src).2 = b :: left ++ rest) := by
  obtain ⟨_, hname, ⟨hplain, htaken, hsrc⟩ | hsrc⟩ := variableAt_cases h
  · have hread := variableName_plain hplain
    rw [htaken] at hread
    constructor
    · intro hshort
      have hwhole : name.take 63 = name := List.take_of_length_le (Nat.le_of_lt_succ hshort)
      rw [hread, hwhole, hsrc, List.drop_left]
    · intro hlong
      obtain ⟨b, left, hleft⟩ := List.exists_cons_of_ne_nil (l := name.drop 63)
        (by rw [ne_eq, List.drop_eq_nil_iff]; exact Nat.not_le.mpr hlong)
      refine ⟨b, left, fun c hc => ?_, ?_⟩
      · exact not_dollar_of_nameByte (hname c (List.mem_of_mem_drop (hleft ▸ hc)))
      · have hcount : (name.take 63).length = 63 := by
          rw [List.length_take]
          exact Nat.min_eq_left (Nat.le_of_lt hlong)
        rw [hread, hcount, hsrc, List.drop_append_of_le_length (Nat.le_of_lt hlong), hleft]
  · have hread : variableName (openBrace :: (name ++ closeBrace :: rest)) = _ :=
      variableName_braced hname
    rw [← hsrc] at hread
    constructor
    · intro hshort
      rw [hread, if_pos hshort, List.take_of_length_le (Nat.le_of_lt_succ hshort)]
    · intro hlong
      obtain ⟨b, left, hleft⟩ := List.exists_cons_of_ne_nil (l := name.drop 63)
        (by rw [ne_eq, List.drop_eq_nil_iff]; exact Nat.not_le.mpr hlong)
      refine ⟨b, left ++ [closeBrace], fun c hc => ?_, ?_⟩
      · rw [← List.cons_append, ← hleft, List.mem_append] at hc
        rcases hc with hc | hc
        · exact not_dollar_of_nameByte (hname c (List.mem_of_mem_drop hc))
        · rw [List.mem_singleton.mp hc]
          decide
      · rw [hread, if_neg (Nat.not_lt.mpr hlong), hleft]
        simp

theorem lead_of_variableAt (h : variableAt src = some (name, rest)) :
    ∃ lead, src = lead ++ rest ∧ dollar ∉ lead := by
  obtain ⟨_, hname, ⟨_, _, hsrc⟩ | hsrc⟩ := variableAt_cases h
  · exact ⟨name, hsrc, fun hin => not_dollar_of_nameByte (hname _ hin) rfl⟩
  · refine ⟨openBrace :: (name ++ [closeBrace]), by simp [hsrc], fun hin => ?_⟩
    rcases List.mem_cons.mp hin with hin | hin
    · exact absurd hin (by decide)
    · rcases List.mem_append.mp hin with hin | hin
      · exact not_dollar_of_nameByte (hname _ hin) rfl
      · exact absurd (List.mem_singleton.mp hin) (by decide)

end Names

section Unfolding

variable {env : EnvTable} {src name rest text lead : Bytes} {c : UInt8}

theorem expansion_cons_of_ne (hc : c ≠ dollar) :
    expansion env (c :: src) = c :: expansion env src := by
  rw [expansion, if_neg hc]

theorem expansion_variable (h : variableAt src = some (name, rest)) :
    expansion env (dollar :: src) = (getEnvVar env name).getD [] ++ expansion env rest := by
  rw [expansion, if_pos rfl]
  split
  · next h' =>
    obtain ⟨rfl, rfl⟩ := Prod.mk.inj (Option.some.inj (h.symm.trans h'))
    rfl
  · next h' => cases h.symm.trans h'

theorem expansion_dollar (h : variableAt src = none) :
    expansion env (dollar :: src) = dollar :: expansion env src := by
  rw [expansion, if_pos rfl]
  split
  · next h' => cases h.symm.trans h'
  · rfl

theorem scanned_cons_of_ne (hc : c ≠ dollar) : scanned env (c :: src) = c :: scanned env src := by
  rw [scanned, if_neg hc]

theorem scanned_dollar (env : EnvTable) (src : Bytes) : scanned env (dollar :: src) =
    (getEnvVar env (variableName src).1).getD [] ++ scanned env (variableName src).2 := by
  rw [scanned, if_pos rfl]

theorem scanned_append (h : ∀ c ∈ lead, c ≠ dollar) (text : Bytes) :
    scanned env (lead ++ text) = lead ++ scanned env text := by
  induction lead with
  | nil => rfl
  | cons c lead ih =>
    rw [List.cons_append, scanned_cons_of_ne (h c List.mem_cons_self),
      ih fun b hb => h b (List.mem_cons_of_mem c hb), List.cons_append]

theorem shortNames_nil : ShortNames [] := by
  intro pre src h
  cases pre <;> cases h

theorem shortNames_cons : ShortNames (c :: src) ↔
    (c = dollar → ∃ name rest, variableAt src = some (name, rest) ∧ name.length < maxVarName) ∧
      ShortNames src := by
  constructor
  · intro h
    refine ⟨?_, fun pre src' hsplit => h (c :: pre) src' (by rw [hsplit, List.cons_append])⟩
    rintro rfl
    exact h [] src rfl
  · rintro ⟨hhead, htail⟩ (_ | ⟨b, pre⟩) src' hsplit
    · obtain ⟨hc, rfl⟩ := List.cons_eq_cons.mp hsplit
      exact hhead hc
    · obtain ⟨_, hrest⟩ := List.cons_eq_cons.mp hsplit
      exact htail pre src' hrest

theorem shortNames_append (h : dollar ∉ lead) : ShortNames (lead ++ text) ↔ ShortNames text := by
  induction lead with
  | nil => exact Iff.rfl
  | cons c lead ih =>
    have hc : c ≠ dollar := fun hc => h (hc ▸ List.mem_cons_self)
    rw [List.cons_append, shortNames_cons, ih (List.not_mem_of_not_mem_cons h)]
    exact and_iff_right fun heq => absurd heq hc

theorem shortNames_variable (h : variableAt src = some (name, rest)) :
    ShortNames (dollar :: src) ↔ name.length < maxVarName ∧ ShortNames rest := by
  obtain ⟨lead, hsrc, hlead⟩ := lead_of_variableAt h
  have htail : ShortNames src ↔ ShortNames rest := by rw [hsrc, shortNames_append hlead]
  rw [shortNames_cons, htail, h]
  refine and_congr_left' ⟨fun hshort => ?_, fun hshort _ => ⟨name, rest, rfl, hshort⟩⟩
  obtain ⟨name', rest', heq, hlt⟩ := hshort rfl
  obtain ⟨rfl, _⟩ := Prod.mk.inj (Option.some.inj heq)
  exact hlt

end Unfolding

section Agreement

variable {env : EnvTable} {text : Bytes}

theorem scanned_eq_expansion {text : Bytes} (h : ShortNames text) :
    scanned env text = expansion env text := by
  match text with
  | [] => rw [scanned, expansion]
  | c :: src =>
    by_cases hc : c = dollar
    · subst hc
      obtain ⟨name, rest, hvar, _⟩ := (shortNames_cons.mp h).1 rfl
      obtain ⟨hshort, hrest⟩ := (shortNames_variable hvar).mp h
      have hless := length_variableAt hvar
      rw [scanned_dollar, (variableName_at hvar).1 hshort, expansion_variable hvar,
        scanned_eq_expansion hrest]
    · rw [scanned_cons_of_ne hc, expansion_cons_of_ne hc,
        scanned_eq_expansion (shortNames_cons.mp h).2]
termination_by text.length
decreasing_by all_goals (simp only [List.length_cons]; omega)

theorem dollar_not_mem_scanned (text : Bytes) : dollar ∉ scanned [] text := by
  match text with
  | [] =>
    rw [scanned]
    exact List.not_mem_nil
  | c :: src =>
    by_cases hc : c = dollar
    · subst hc
      have hless := length_variableName src
      rw [scanned_dollar]
      exact dollar_not_mem_scanned (variableName src).2
    · rw [scanned_cons_of_ne hc, List.mem_cons, not_or]
      exact ⟨Ne.symm hc, dollar_not_mem_scanned src⟩
termination_by text.length
decreasing_by all_goals (simp only [List.length_cons]; omega)

theorem length_expansion_le {text : Bytes} (h : dollar ∉ expansion [] text) :
    (expansion [] text).length ≤ (scanned [] text).length := by
  match text with
  | [] => rw [scanned, expansion]
  | c :: src =>
    by_cases hc : c = dollar
    · subst hc
      cases hvar : variableAt src with
      | none =>
        rw [expansion_dollar hvar] at h
        exact absurd List.mem_cons_self h
      | some found =>
        obtain ⟨name, rest⟩ := found
        have hless := length_variableAt hvar
        rw [expansion_variable hvar] at h ⊢
        have hrest := length_expansion_le h
        rw [scanned_dollar]
        rcases Nat.lt_or_ge name.length maxVarName with hshort | hlong
        · rw [(variableName_at hvar).1 hshort]
          exact hrest
        · obtain ⟨b, left, hplain, hleft⟩ := (variableName_at hvar).2 hlong
          rw [hleft, scanned_append hplain]
          refine Nat.le_trans hrest ?_
          simp only [List.length_append]
          omega
    · rw [expansion_cons_of_ne hc] at h ⊢
      rw [scanned_cons_of_ne hc, List.length_cons, List.length_cons]
      exact Nat.succ_le_succ (length_expansion_le (List.not_mem_of_not_mem_cons h))
termination_by text.length
decreasing_by all_goals (simp only [List.length_cons]; omega)

theorem shortNames_of_eq {text : Bytes} (h : scanned [] text = expansion [] text) :
    ShortNames text := by
  match text with
  | [] => exact shortNames_nil
  | c :: src =>
    by_cases hc : c = dollar
    · subst hc
      cases hvar : variableAt src with
      | none =>
        have hnot := dollar_not_mem_scanned (dollar :: src)
        rw [h, expansion_dollar hvar] at hnot
        exact absurd List.mem_cons_self hnot
      | some found =>
        obtain ⟨name, rest⟩ := found
        have hless := length_variableAt hvar
        have hnot := dollar_not_mem_scanned (dollar :: src)
        rw [h, expansion_variable hvar] at hnot
        rw [scanned_dollar, expansion_variable hvar] at h
        rcases Nat.lt_or_ge name.length maxVarName with hshort | hlong
        · rw [(variableName_at hvar).1 hshort] at h
          exact (shortNames_variable hvar).mpr ⟨hshort, shortNames_of_eq h⟩
        · obtain ⟨b, left, hplain, hleft⟩ := (variableName_at hvar).2 hlong
          have hle := length_expansion_le hnot
          have hlength := congrArg List.length h
          rw [hleft, scanned_append hplain] at hlength
          simp [getEnvVar, holder] at hlength
          omega
    · rw [scanned_cons_of_ne hc, expansion_cons_of_ne hc] at h
      refine shortNames_cons.mpr ⟨fun heq => absurd heq hc, shortNames_of_eq ?_⟩
      exact (List.cons_eq_cons.mp h).2
termination_by text.length
decreasing_by all_goals (simp only [List.length_cons]; omega)

theorem expands_faithfully_iff (text : Bytes) : ExpandsFaithfully text ↔ ShortNames text := by
  constructor
  · intro h
    have hroom : (scanned [] text).length ≤
        (scanned [] text).length + (expansion [] text).length + 1 - 1 := by omega
    have hwhole := (h [] ((scanned [] text).length + (expansion [] text).length + 1)
      (Nat.succ_pos _)).2
    have hempty : envAfter [] = [] := rfl
    rw [hempty] at hwhole
    refine shortNames_of_eq ?_
    rw [← hwhole (by omega), expandVariables, expandFrom_scanned (Nat.le_refl _) hroom]
  · intro hshort sets outputSize hpos
    have hle := length_expandFrom_le (envAfter sets) text.length text (outputSize - 1)
    refine ⟨by rw [expandVariables]; omega, fun hfit => ?_⟩
    rw [← scanned_eq_expansion hshort] at hfit ⊢
    exact expandFrom_scanned (Nat.le_refl _) (Nat.le_sub_of_add_le hfit)

end Agreement

theorem variables_kept_iff {sets : List (Bytes × Bytes)}
    (hvalues : ∀ set ∈ sets, set.2.length < maxVarValue)
    (hfew : (distinctNames sets).card ≤ maxEnvVars) (text : Bytes) :
    GetsLastSet sets ∧ ExpandsFaithfully text ↔
      (∀ set ∈ sets, set.1.length < maxVarName) ∧ ShortNames text :=
  and_congr (gets_last_set_iff hvalues hfew) (expands_faithfully_iff text)

section Concrete

def someSets : List (Bytes × Bytes) :=
  [(str "HOME", str "/home"), (str "USER", str "guest"), (str "HOME", str "/")]

theorem variables_kept_iff_home : GetsLastSet someSets ∧ ExpandsFaithfully (str "ls $HOME") := by
  have hvar : variableAt (str "HOME") = some (str "HOME", []) := by decide
  have htext : ShortNames (str "ls " ++ dollar :: str "HOME") :=
    (shortNames_append (by decide)).mpr ((shortNames_variable hvar).mpr ⟨by decide, shortNames_nil⟩)
  exact (variables_kept_iff (by decide) (by decide) _).mpr ⟨by decide, htext⟩

def longName : Bytes := List.replicate 64 97

theorem long_name_not_found :
    ¬ ∀ (sets : List (Bytes × Bytes)) (text : Bytes), (∀ set ∈ sets, set.2.length < maxVarValue) →
      (distinctNames sets).card ≤ maxEnvVars → GetsLastSet sets ∧ ExpandsFaithfully text := by
  intro hall
  have hgets := (hall [(longName, str "v")] [] (by decide) (by decide +kernel)).1
  exact absurd (hgets longName) (by decide +kernel)

end Concrete

end ZoraVM.Shell
