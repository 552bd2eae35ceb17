import ZoraVM.Foundation.LexicalPath
import ZoraVM.Shell.FileCommands
import ZoraVM.Vfs.Paths

namespace ZoraVM.Shell

open Foundation Vfs

section Definitions

inductive PathCommand where
  | mkdir
  | rm
  | cp
  | ls
  deriving DecidableEq, Repr

-- The absolute path each command makes of its argument; ls takes its flags out before.
def builtPath (cwd p : Bytes) : PathCommand → Bytes
  | .mkdir => fullPath cwd p
  | .rm => fullPath cwd p
  | .cp => fullPath cwd p
  | .ls => fullPath cwd p

def tilde : Bytes := str "~"

-- What the path says, read against the directory with the names `cwd`.
def meaning (cwd : List Bytes) (p : Bytes) : List Bytes :=
  if p = tilde ∨ (str "~/").isPrefixOf p then
    lexically dot dotDot [str "home"] (tokens slash (p.drop 1))
  else if p.head? = some slash then lexically dot dotDot [] (tokens slash p)
  else lexically dot dotDot cwd (tokens slash p)

def remainder (p : Bytes) : Bytes :=
  if p = tilde ∨ p = dotDot ∨ p = dot then []
  else if (str "../").isPrefixOf p then p.drop 3
  else if (str "~/").isPrefixOf p then p.drop 2
  else p

def NoDots (p : Bytes) : Prop := dot ∉ tokens slash p ∧ dotDot ∉ tokens slash p

instance (p : Bytes) : Decidable (NoDots p) := inferInstanceAs (Decidable (_ ∧ _))

def MeansWhatItSays (cwd : List Bytes) (p : Bytes) : Prop :=
  ∀ c, pathComponents (builtPath (absolutePath cwd) p c) = meaning cwd p

end Definitions

section Beginnings

variable {cwd : List Bytes} {p r : Bytes} {limit : Nat}

def Spelled (cwd : List Bytes) (p : Bytes) : Prop :=
  ∃ start, tokens slash (fullPath (absolutePath cwd) p) = start ++ tokens slash (remainder p) ∧
    meaning cwd p = lexically dot dotDot start (tokens slash (remainder p))

theorem clip_of_length_clip {n : Nat} {s : Bytes} (h : (clip n s).length < n - 1) : clip n s = s := by
  rw [clip, List.length_take] at h
  exact List.take_of_length_le (by omega)

theorem parentPrefix_spec (hnames : ∀ c ∈ cwd, c ≠ [] ∧ slash ∉ c)
    (hlimit : (absolutePath cwd).length < limit) :
    tokens slash (parentPrefix limit (absolutePath cwd)) = cwd.dropLast ∧
      (parentPrefix limit (absolutePath cwd) ++ [slash]).head? = some slash := by
  obtain rfl | ⟨names, name, rfl⟩ := List.eq_nil_or_concat cwd
  · have hroot : parentPrefix limit (absolutePath []) = [] := by
      have hsplit : splitLast slash (absolutePath []) = some ([], []) := by decide
      rw [parentPrefix, hsplit]
      exact ite_self _
    rw [hroot]
    exact ⟨rfl, rfl⟩
  · rw [List.concat_eq_append] at hnames hlimit ⊢
    have hslash : slash ∉ name := (hnames name (by simp)).2
    have hfit : (names.flatMap (slash :: ·)).length < limit := by
      rw [absolutePath_concat, List.length_append] at hlimit
      omega
    have habove : parentPrefix limit (absolutePath (names ++ [name])) =
        names.flatMap (slash :: ·) := by
      rw [absolutePath_concat, parentPrefix, splitLast_append hslash]
      exact if_pos hfit
    rw [habove, List.dropLast_concat]
    refine ⟨tokens_flatMap fun c hc => hnames c (by simp [hc]), ?_⟩
    cases names with
    | nil => rfl
    | cons first names => rfl

variable (hnames : ∀ c ∈ cwd, c ≠ [] ∧ slash ∉ c) (hcwd : (absolutePath cwd).length < 256)

include hnames hcwd

theorem spelled_up : Spelled cwd dotDot := by
  obtain ⟨htokens, hhead⟩ := parentPrefix_spec hnames (Nat.lt_trans hcwd (by decide : 256 < 512))
  refine ⟨cwd.dropLast, ?_, rfl⟩
  have hexpand : expandPath (absolutePath cwd) dotDot =
      if parentPrefix 512 (absolutePath cwd) = [] then [slash]
      else parentPrefix 512 (absolutePath cwd) := rfl
  have hempty : tokens slash (remainder dotDot) = [] := rfl
  rw [hempty, List.append_nil, fullPath, hexpand]
  split
  · next hroot =>
    rw [hroot] at htokens
    exact htokens
  · next hsome =>
    rw [List.head?_append_of_ne_nil _ hsome] at hhead
    rw [if_pos hhead, htokens]

theorem spelled_here : Spelled cwd dot := by
  refine ⟨cwd, ?_, rfl⟩
  have hexpand : expandPath (absolutePath cwd) dot = clip 512 (absolutePath cwd) := rfl
  have hempty : tokens slash (remainder dot) = [] := rfl
  rw [hempty, List.append_nil, fullPath, hexpand,
    clip_of_length_lt (Nat.lt_trans hcwd (by decide : 256 < 512)),
    if_pos (head_absolutePath cwd), tokens_absolutePath hnames]

theorem spelled_above (hfull : (fullPath (absolutePath cwd) (dotDot ++ slash :: r)).length < 256) :
    Spelled cwd (dotDot ++ slash :: r) := by
  obtain ⟨htokens, hhead⟩ := parentPrefix_spec hnames hcwd
  refine ⟨cwd.dropLast, ?_, rfl⟩
  have hexpand : expandPath (absolutePath cwd) (dotDot ++ slash :: r) =
      clip 512 (parentPrefix 256 (absolutePath cwd) ++ slash :: r) := rfl
  have hrest : remainder (dotDot ++ slash :: r) = r := rfl
  have hslash : (clip 512 (parentPrefix 256 (absolutePath cwd) ++ slash :: r)).head? =
      some slash := by
    cases hdir : parentPrefix 256 (absolutePath cwd) with
    | nil => rfl
    | cons b dir =>
      rw [hdir] at hhead
      exact hhead
  rw [fullPath, hexpand, if_pos hslash] at hfull ⊢
  rw [hrest, clip_of_length_clip (Nat.lt_trans hfull (by decide)), tokens_append_cons, htokens]

omit hnames hcwd in
theorem spelled_tilde : Spelled cwd tilde := by
  refine ⟨[str "home"], ?_, rfl⟩
  have hfull : fullPath (absolutePath cwd) tilde = str "/home" := rfl
  rw [hfull]
  decide

omit hnames hcwd in
theorem spelled_home (hfull : (fullPath (absolutePath cwd) (tilde ++ slash :: r)).length < 256) :
    Spelled cwd (tilde ++ slash :: r) := by
  have hmeaning : meaning cwd (tilde ++ slash :: r) =
      lexically dot dotDot [str "home"] (tokens slash (slash :: r)) := rfl
  have hrest : remainder (tilde ++ slash :: r) = r := rfl
  have hbuilt : fullPath (absolutePath cwd) (tilde ++ slash :: r) =
      clip 512 (str "/home" ++ slash :: r) := rfl
  have hhome : tokens slash (str "/home") = [str "home"] := by decide
  refine ⟨[str "home"], ?_, ?_⟩
  · rw [hbuilt] at hfull ⊢
    rw [hrest, clip_of_length_clip (Nat.lt_trans hfull (by decide)), tokens_append_cons, hhome]
  · rw [hmeaning, hrest, tokens_cons_self]

omit hcwd in
theorem spelled_plain (hup : p ≠ dotDot) (hhere : p ≠ dot) (htilde : p ≠ tilde)
    (habove : ¬ (str "../").isPrefixOf p = true) (hhome : ¬ (str "~/").isPrefixOf p = true)
    (hp : p.length < 256) (hfull : (fullPath (absolutePath cwd) p).length < 256) :
    Spelled cwd p := by
  have hrest : remainder p = p := by
    rw [remainder, if_neg (by simp [hup, hhere, htilde]), if_neg habove, if_neg hhome]
  have hexpand : expandPath (absolutePath cwd) p = p := by
    rw [expandPath, if_neg (show ¬ p = str "~" from htilde), if_neg (show ¬ p = str ".." from hup),
      if_neg (show ¬ p = str "." from hhere), if_neg habove, if_neg hhome,
      clip_of_length_lt (Nat.lt_trans hp (by decide))]
  have hmeaning : meaning cwd p = if p.head? = some slash then lexically dot dotDot [] (tokens slash p)
      else lexically dot dotDot cwd (tokens slash p) := by
    rw [meaning, if_neg (by simp [hhome, htilde])]
  rw [fullPath, hexpand] at hfull
  rw [Spelled, hrest, hmeaning, fullPath, hexpand]
  by_cases hroot : p.head? = some slash
  · refine ⟨[], ?_, ?_⟩
    · rw [if_pos hroot]
      rfl
    · rw [if_pos hroot]
  · rw [if_neg hroot] at hfull ⊢
    refine ⟨cwd, ?_, if_neg hroot⟩
    rw [clip_of_length_clip (Nat.lt_trans hfull (by decide)), tokens_append_cons,
      tokens_absolutePath hnames]

theorem spelled (hp : p.length < 256) (hfull : (fullPath (absolutePath cwd) p).length < 256) :
    Spelled cwd p := by
  by_cases htilde : p = tilde
  · exact htilde ▸ spelled_tilde
  by_cases hup : p = dotDot
  · exact hup ▸ spelled_up hnames hcwd
  by_cases hhere : p = dot
  · exact hhere ▸ spelled_here hnames hcwd
  by_cases habove : (str "../").isPrefixOf p = true
  · obtain ⟨r, rfl⟩ := List.isPrefixOf_iff_prefix.mp habove
    exact spelled_above hnames hcwd hfull
  by_cases hhome : (str "~/").isPrefixOf p = true
  · obtain ⟨r, rfl⟩ := List.isPrefixOf_iff_prefix.mp hhome
    exact spelled_home hfull
  · exact spelled_plain hnames hup hhere htilde habove hhome hp hfull

theorem path_meaning_iff (hp : p.length < 256)
    (hfull : ∀ c, (builtPath (absolutePath cwd) p c).length < 256) :
    MeansWhatItSays cwd p ↔ NoDots (remainder p) := by
  have hbuilt : ∀ c, builtPath (absolutePath cwd) p c = fullPath (absolutePath cwd) p := by
    intro c
    cases c <;> rfl
  have hshort : (fullPath (absolutePath cwd) p).length < 256 := hfull .mkdir
  obtain ⟨start, htokens, hmeaning⟩ := spelled hnames hcwd hp hshort
  have hsame : MeansWhatItSays cwd p ↔
      lexically dot dotDot start (tokens slash (remainder p)) = start ++ tokens slash (remainder p) := by
    simp only [MeansWhatItSays, hbuilt, pathComponents_of_short hshort, htokens, hmeaning]
    exact ⟨fun h => (h .mkdir).symm, fun h _ => h.symm⟩
  rw [hsame, lexically_eq_append_iff]
  rfl

end Beginnings

section Concrete

def workDir : List Bytes := [str "home", str "docs"]

theorem path_meaning_iff_up : MeansWhatItSays workDir (str "../notes/a.txt") :=
  (path_meaning_iff (by decide) (by decide) (by decide) fun c => by cases c <;> decide).mpr
    (by decide)

theorem second_up_is_a_name :
    ¬ ∀ (cwd : List Bytes) (p : Bytes), (∀ c ∈ cwd, c ≠ [] ∧ slash ∉ c) →
      (absolutePath cwd).length < 256 → p.length < 256 →
      (∀ c, (builtPath (absolutePath cwd) p c).length < 256) → MeansWhatItSays cwd p := by
  intro hall
  have hmeans := hall workDir (str "../..") (by decide) (by decide) (by decide)
    fun c => by cases c <;> decide
  exact absurd (hmeans .mkdir) (by decide)

end Concrete

end ZoraVM.Shell
