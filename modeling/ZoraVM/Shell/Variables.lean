import ZoraVM.Foundation.Registry
import ZoraVM.Shell.CommandLine

namespace ZoraVM.Shell

open Foundation

section Table

def maxEnvVars : Nat := 100
def maxVarValue : Nat := 256

abbrev EnvTable := List (Bytes × Bytes)

def withValue (value : Bytes) (var : Bytes × Bytes) : Bytes × Bytes := (var.1, clip maxVarValue value)

def setEnvVar (env : EnvTable) (name value : Bytes) : EnvTable :=
  if (holder Prod.fst env name).isSome then
    adjust Prod.fst env name (withValue value)
  else if env.length < maxEnvVars then
    env ++ [(clip maxVarName name, clip maxVarValue value)]
  else env

def getEnvVar (env : EnvTable) (name : Bytes) : Option Bytes :=
  (holder Prod.fst env name).map Prod.snd

def envAfter (sets : List (Bytes × Bytes)) : EnvTable :=
  sets.foldl (fun env set => setEnvVar env set.1 set.2) []

def lastValue (sets : List (Bytes × Bytes)) (name : Bytes) : Option Bytes := sets.reverse.lookup name

def GetsLastSet (sets : List (Bytes × Bytes)) : Prop :=
  ∀ name, getEnvVar (envAfter sets) name = lastValue sets name

variable {env : EnvTable} {sets : List (Bytes × Bytes)} {name value n : Bytes}

theorem lookup_eq_getEnvVar (env : EnvTable) (name : Bytes) : env.lookup name = getEnvVar env name := by
  induction env with
  | nil => rfl
  | cons var env ih =>
    rw [List.lookup_cons, ih, getEnvVar, getEnvVar, holder, holder]
    by_cases h : var.1 = name
    · simp [h]
    · rw [List.find?_cons_of_neg (by simpa using h), beq_false_of_ne (Ne.symm h)]

theorem fst_withValue (value : Bytes) (var : Bytes × Bytes) : (withValue value var).1 = var.1 := rfl

theorem envAfter_concat (sets : List (Bytes × Bytes)) (set : Bytes × Bytes) :
    envAfter (sets ++ [set]) = setEnvVar (envAfter sets) set.1 set.2 :=
  List.foldl_concat _ _ _ _

theorem keys_setEnvVar (env : EnvTable) (name value : Bytes) :
    (setEnvVar env name value).map Prod.fst = env.map Prod.fst ∨
      (name ∉ env.map Prod.fst ∧
        (setEnvVar env name value).map Prod.fst = env.map Prod.fst ++ [clip maxVarName name]) := by
  rw [setEnvVar]
  split
  · exact .inl (map_adjust (fst_withValue value) env name)
  · next hnone =>
    split
    · refine .inr ⟨?_, by simp⟩
      rw [← holder_eq_none_iff]
      simpa using hnone
    · exact .inl rfl

theorem keys_short (sets : List (Bytes × Bytes)) :
    ∀ k ∈ (envAfter sets).map Prod.fst, k.length < maxVarName := by
  induction sets using List.reverseRecOn with
  | nil => simp [envAfter]
  | append_singleton sets set ih =>
    rw [envAfter_concat]
    rcases keys_setEnvVar (envAfter sets) set.1 set.2 with hsame | ⟨_, hnew⟩
    · rwa [hsame]
    · rw [hnew]
      intro k hk
      rcases List.mem_append.mp hk with hk | hk
      · exact ih k hk
      · rw [List.mem_singleton.mp hk]
        exact Nat.lt_of_le_of_lt (length_clip_le _ _) (by decide)

theorem getEnvVar_setEnvVar (hname : name.length < maxVarName) (hvalue : value.length < maxVarValue)
    (hroom : name ∈ env.map Prod.fst ∨ env.length < maxEnvVars) (n : Bytes) :
    getEnvVar (setEnvVar env name value) n = if n = name then some value else getEnvVar env n := by
  rw [setEnvVar, clip_of_length_lt hname, getEnvVar, getEnvVar]
  by_cases hset : name ∈ env.map Prod.fst
  · have hfound : (holder Prod.fst env name).isSome = true := by
      rw [Option.isSome_iff_ne_none]
      exact fun hnone => holder_eq_none_iff.mp hnone hset
    rw [if_pos hfound]
    by_cases hn : n = name
    · obtain ⟨var, hvar⟩ := Option.isSome_iff_exists.mp hfound
      rw [hn, if_pos rfl, holder_adjust (fst_withValue value), hvar]
      exact congrArg some (clip_of_length_lt hvalue)
    · rw [if_neg hn, holder_adjust_of_ne (fst_withValue value) hn]
  · have hnone := holder_eq_none_iff.mpr hset
    rw [hnone, if_neg (by simp), if_pos (hroom.resolve_left hset), clip_of_length_lt hvalue]
    by_cases hn : n = name
    · have hfresh : ∀ var ∈ env, var.1 ≠ name := fun var hvar he =>
        hset (List.mem_map.mpr ⟨var, hvar, he⟩)
      rw [hn, if_pos rfl, holder_append_fresh (b := (name, value)) hfresh]
      rfl
    · rw [if_neg hn, holder_append_of_ne (Ne.symm hn)]

theorem lastValue_concat (sets : List (Bytes × Bytes)) (set : Bytes × Bytes) (n : Bytes) :
    lastValue (sets ++ [set]) n = if n = set.1 then some set.2 else lastValue sets n := by
  rw [lastValue, List.reverse_append, List.reverse_singleton, List.singleton_append, List.lookup_cons]
  by_cases hn : n = set.1
  · simp [hn]
  · rw [if_neg hn, beq_false_of_ne hn, lastValue]

theorem lastValue_of_mem {set : Bytes × Bytes} (h : set ∈ sets) : ∃ v, lastValue sets set.1 = some v := by
  rw [lastValue, lookup_eq_getEnvVar, getEnvVar]
  have hmem : set.1 ∈ sets.reverse.map Prod.fst := List.mem_map_of_mem (List.mem_reverse.mpr h)
  have hsome : holder Prod.fst sets.reverse set.1 ≠ none := fun hnone =>
    holder_eq_none_iff.mp hnone hmem
  obtain ⟨var, hvar⟩ := Option.ne_none_iff_exists'.mp hsome
  exact ⟨var.2, by rw [hvar]; rfl⟩

def distinctNames (sets : List (Bytes × Bytes)) : Finset Bytes := (sets.map Prod.fst).toFinset

theorem room_for_name {env : List (Bytes × Bytes)} {set : Bytes × Bytes}
    (hnodup : (env.map Prod.fst).Nodup) (hkeys : ∀ k ∈ env.map Prod.fst, k ∈ sets.map Prod.fst)
    (hfew : (distinctNames (sets ++ [set])).card ≤ maxEnvVars) :
    set.1 ∈ env.map Prod.fst ∨ env.length < maxEnvVars := by
  by_cases hin : set.1 ∈ env.map Prod.fst
  · exact .inl hin
  · right
    have hnew : (set.1 :: env.map Prod.fst).Nodup := List.nodup_cons.mpr ⟨hin, hnodup⟩
    have hall : (set.1 :: env.map Prod.fst).toFinset ⊆ distinctNames (sets ++ [set]) := by
      intro k hk
      simp only [List.mem_toFinset, List.mem_cons] at hk
      simp only [distinctNames, List.mem_toFinset, List.map_append, List.mem_append,
        List.map_singleton, List.mem_singleton]
      exact hk.elim .inr fun hk => .inl (hkeys k hk)
    have hcard := Nat.le_trans (Finset.card_le_card hall) hfew
    rw [List.toFinset_card_of_nodup hnew, List.length_cons, List.length_map] at hcard
    exact hcard

theorem envAfter_spec (hshort : ∀ set ∈ sets, set.1.length < maxVarName)
    (hvalues : ∀ set ∈ sets, set.2.length < maxVarValue)
    (hfew : (distinctNames sets).card ≤ maxEnvVars) :
    ((envAfter sets).map Prod.fst).Nodup ∧ (∀ k ∈ (envAfter sets).map Prod.fst, k ∈ sets.map Prod.fst) ∧
      GetsLastSet sets := by
  induction sets using List.reverseRecOn with
  | nil => exact ⟨List.nodup_nil, by simp [envAfter], fun _ => rfl⟩
  | append_singleton sets set ih =>
    have hsub : distinctNames sets ⊆ distinctNames (sets ++ [set]) := by
      intro k hk
      simp only [distinctNames, List.mem_toFinset, List.map_append, List.mem_append] at hk ⊢
      exact .inl hk
    obtain ⟨hnodup, hkeys, hgets⟩ := ih (fun s hs => hshort s (by simp [hs]))
      (fun s hs => hvalues s (by simp [hs])) (Nat.le_trans (Finset.card_le_card hsub) hfew)
    have hname := hshort set (by simp)
    have hroom := room_for_name hnodup hkeys hfew
    rw [envAfter_concat]
    refine ⟨?_, ?_, fun n => ?_⟩
    · rcases keys_setEnvVar (envAfter sets) set.1 set.2 with hsame | ⟨hfresh, hnew⟩
      · rwa [hsame]
      · rw [hnew, clip_of_length_lt hname, List.nodup_append_comm]
        exact List.nodup_cons.mpr ⟨hfresh, hnodup⟩
    · intro k hk
      rw [List.map_append, List.mem_append]
      rcases keys_setEnvVar (envAfter sets) set.1 set.2 with hsame | ⟨_, hnew⟩
      · exact .inl (hkeys k (hsame ▸ hk))
      · rw [hnew, clip_of_length_lt hname, List.mem_append] at hk
        exact hk.imp (hkeys k) fun hk => by simpa using hk
    · rw [envAfter_concat, getEnvVar_setEnvVar hname (hvalues set (by simp)) hroom, lastValue_concat,
        hgets n]

theorem gets_last_set_iff (hvalues : ∀ set ∈ sets, set.2.length < maxVarValue)
    (hfew : (distinctNames sets).card ≤ maxEnvVars) :
    GetsLastSet sets ↔ ∀ set ∈ sets, set.1.length < maxVarName := by
  refine ⟨fun hgets set hset => ?_, fun hshort => (envAfter_spec hshort hvalues hfew).2.2⟩
  by_contra hlong
  obtain ⟨v, hv⟩ := lastValue_of_mem hset
  have hnone : holder Prod.fst (envAfter sets) set.1 = none :=
    holder_eq_none_iff.mpr fun hin => hlong (keys_short sets _ hin)
  have hget := hgets set.1
  rw [getEnvVar, hnone, hv] at hget
  cases hget

end Table

end ZoraVM.Shell
