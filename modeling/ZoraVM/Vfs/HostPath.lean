import ZoraVM.Vfs.Soundness

namespace ZoraVM.Vfs

open Foundation Location

variable {nodes : Forest Attr} {root n : Nat} {names : List Bytes}

section Walk

variable {f : Attr → Attr}

theorem hostPathFrom_update (hf : ∀ a, (f a).name = a.name) (m : Nat) (fuel n : Nat) (path : Bytes) :
    hostPathFrom (Forest.update nodes m f) fuel n path = hostPathFrom nodes fuel n path := by
  induction fuel generalizing n path with
  | zero => rfl
  | succ fuel ih =>
    simp only [hostPathFrom, Forest.parentOf_update, Forest.keyAt_update hf, ih]

theorem hostPathFrom_root (hwf : Forest.WellFormed nodes root) (fuel : Nat) (path : Bytes) :
    hostPathFrom nodes fuel root path = path := by
  cases fuel with
  | zero => rfl
  | succ fuel => simp [hostPathFrom, (hwf.rooted hwf.root_live).mpr rfl]

-- `below` is the path built so far, from a node under the one the walk has come to.
theorem hostPathFrom_below (hwf : Forest.WellFormed nodes root) {below : Bytes} (hne : below ≠ [])
    {fuel : Nat} (hw : Forest.walk Attr.name nodes root names = some n) (hfuel : names.length ≤ fuel)
    (hlen : extent (names ++ [below]) ≤ 1024) :
    hostPathFrom nodes fuel n below = joined (names ++ [below]) := by
  induction names using List.reverseRecOn generalizing n below fuel with
  | nil =>
    obtain rfl := Option.some.inj hw
    exact hostPathFrom_root hwf fuel below
  | append_singleton pre name ih =>
    rw [Forest.walk_concat] at hw
    obtain ⟨m, hm, hc⟩ := Option.bind_eq_some_iff.mp hw
    obtain ⟨hmem, hkey⟩ := Forest.childNamed_eq_some hc
    have hparent := (hwf.child_parent hmem).2
    simp only [extent_append, extent_cons, extent_nil] at hlen
    have hfit : (name ++ backslash :: below).length < 1024 := by
      rw [List.length_append, List.length_cons]
      omega
    cases fuel with
    | zero => simp at hfuel
    | succ fuel =>
      have hlong : extent (pre ++ [name ++ backslash :: below]) ≤ 1024 := by
        simp only [extent_append, extent_cons, extent_nil, List.length_append, List.length_cons]
        omega
      have hshort : pre.length ≤ fuel := by simpa using hfuel
      have hrest := ih (by simp) hm hshort hlong
      simp only [hostPathFrom, hparent, hkey, if_neg hne, clip_of_length_lt hfit, hrest,
        joined_concat, List.append_assoc, List.cons_append, List.nil_append]

theorem hostPathFrom_walk (hwf : Forest.WellFormed nodes root) {fuel : Nat}
    (hw : Forest.walk Attr.name nodes root names = some n) (hne : ∀ name ∈ names, name ≠ [])
    (hfuel : names.length ≤ fuel) (hlen : extent names ≤ 1024) :
    hostPathFrom nodes fuel n [] = joined names := by
  induction names using List.reverseRecOn generalizing n with
  | nil =>
    obtain rfl := Option.some.inj hw
    exact hostPathFrom_root hwf fuel []
  | append_singleton pre name _ =>
    rw [Forest.walk_concat] at hw
    obtain ⟨m, hm, hc⟩ := Option.bind_eq_some_iff.mp hw
    obtain ⟨hmem, hkey⟩ := Forest.childNamed_eq_some hc
    have hparent := (hwf.child_parent hmem).2
    have hfit : name.length < 1024 := by
      simp only [extent_append, extent_cons, extent_nil] at hlen
      omega
    cases fuel with
    | zero => simp at hfuel
    | succ fuel =>
      simp only [hostPathFrom, hparent, hkey, if_pos, clip_of_length_lt hfit]
      exact hostPathFrom_below hwf (hne name (by simp)) hm (by simpa using hfuel) hlen

end Walk

section Paths

theorem extent_pathComponents (path : Bytes) : extent (pathComponents path) ≤ 256 := by
  have hlen := length_clip_le 256 path
  have hsum : extent (pathComponents path) ≤ (clip 256 path).length + 1 :=
    sum_length_tokens (clip 256 path)
  omega

theorem pathComponents_ne_nil {path name : Bytes} (h : name ∈ pathComponents path) : name ≠ [] :=
  (mem_tokens h).2

section Built

variable {s : VfsState} (hwf : Forest.WellFormed s.nodes s.root) (hne : ∀ name ∈ names, name ≠ [])
  (hnames : names ≠ []) (hlen : extent names ≤ 512) (hroot : s.hostRootDirectory.length ≤ 511)

include hne hnames hlen hroot

-- 511 bytes of root and 511 of path fit path_buffer and full_path.
theorem vfsGetHostPath_eq (hpath : hostPathFrom s.nodes s.nodes.size n [] = joined names) :
    vfsGetHostPath s n = s.hostRootDirectory ++ backslash :: joined names := by
  have hjoined := length_joined hnames
  have hfit : (s.hostRootDirectory ++ backslash :: joined names).length < 1024 := by
    rw [List.length_append, List.length_cons]
    omega
  simp only [vfsGetHostPath, hpath, if_neg (joined_ne_nil hne hnames), clip_of_length_lt hfit]

include hwf

theorem vfsGetHostPath_walk (hw : Forest.walk Attr.name s.nodes s.root names = some n) :
    vfsGetHostPath s n = s.hostRootDirectory ++ backslash :: joined names := by
  have hfuel : names.length ≤ s.nodes.size := by
    have hle := hwf.walk_length_le hw
    have hlt := Forest.live_lt_size (hwf.live_walk hwf.root_live hw)
    omega
  exact vfsGetHostPath_eq hne hnames hlen hroot (hostPathFrom_walk hwf hw hne hfuel (by omega))

theorem vfsGetHostPath_unnamed {parent : Nat}
    (hw : Forest.walk Attr.name s.nodes s.root names = some parent)
    (hparent : Forest.parentOf s.nodes n = some parent)
    (hkey : Forest.keyAt Attr.name s.nodes n = some []) :
    vfsGetHostPath s n = s.hostRootDirectory ++ backslash :: joined names := by
  have hle := hwf.walk_length_le hw
  have hlt := Forest.live_lt_size (hwf.live_walk hwf.root_live hw)
  obtain ⟨fuel, hfuel⟩ : ∃ fuel, s.nodes.size = fuel + 1 := ⟨s.nodes.size - 1, by omega⟩
  refine vfsGetHostPath_eq hne hnames hlen hroot ?_
  have hdepth : names.length ≤ fuel := by omega
  have hrest := hostPathFrom_walk hwf hw hne hdepth (by omega)
  rw [hfuel]
  simpa [hostPathFrom, hparent, hkey, clip] using hrest

end Built

end Paths

end ZoraVM.Vfs
