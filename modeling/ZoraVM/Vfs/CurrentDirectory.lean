import ZoraVM.Vfs.TreeShape

namespace ZoraVM.Vfs

open Foundation

section Model

variable (s : VfsState)

def vfsGetcwd : Bytes := s.currentDirectory

-- vm_fs->current_dir: vfs_init puts the root there, and nothing else assigns it.
def currentDir : Nat := s.root

-- The walk up the parents: `path` is what temp_path holds.
def cwdFrom (nodes : Forest Attr) : Nat → Nat → Bytes → Bytes
  | 0, _, path => path
  | fuel + 1, current, path =>
    match Forest.parentOf nodes current, Forest.keyAt Attr.name nodes current with
    | some parent, some name => cwdFrom nodes fuel parent (clip 256 (slash :: (name ++ path)))
    | _, _ => path

def vmGetcwd : Outcome Bytes :=
  if s.nodes.live (currentDir s) then
    let path := cwdFrom s.nodes s.nodes.size (currentDir s) []
    .ok (if path = [] then [slash] else path)
  else .error .freedNode

-- new_path of vfs_chdir.
def chdirPath (path : Bytes) : Bytes :=
  if path.head? = some slash then clip 256 path
  else if s.currentDirectory = [slash] then clip 256 (slash :: path)
  else clip 256 (s.currentDirectory ++ slash :: path)

def Coherent : Prop :=
  ∃ n path, findDirectory s (vfsGetcwd s) = .ok (some n) ∧ vmGetcwd s = .ok path ∧
    vfsFindNode s path = .ok (some n)

end Model

section Calls

def directoryCall : VfsCall → Bool
  | .chdir _ => true
  | .mkdir _ => true
  | .rmdir _ => true
  | .createFile _ => true
  | .deleteFile _ => true
  | _ => false

def keepsCwd (s : VfsState) : VfsCall → Bool
  | .chdir path =>
    match findDirectory s (chdirPath s path) with
    | .ok (some _) => pathComponents (chdirPath s path) == []
    | _ => true
  | .rmdir path => pathComponents path != [] || Forest.childrenOf s.nodes s.root != []
  | _ => true

end Calls

section Root

variable {s s' : VfsState} {path : Bytes} {n : Nat} {r : Int}

theorem vfsChdir_eq (s : VfsState) (path : Bytes) :
    vfsChdir s path =
      (findDirectory s (chdirPath s path)).bind fun found =>
        match found with
        | none => .ok (-1, s)
        | some _ => .ok (0, { s with currentDirectory := chdirPath s path }) := rfl

theorem cwdFrom_orphan {nodes : Forest Attr} (h : Forest.parentOf nodes n = none) (fuel : Nat)
    (path : Bytes) : cwdFrom nodes fuel n path = path := by
  cases fuel with
  | zero => rfl
  | succ fuel => rw [cwdFrom, h]

theorem findDirectory_root (h : Shaped s) (hlive : s.nodes.live s.root = true)
    (hroot : pathComponents path = []) : findDirectory s path = .ok (some s.root) := by
  obtain ⟨a, ha⟩ := Forest.live_iff_valAt.mp hlive
  have hwalk : Forest.walk Attr.name s.nodes s.root (pathComponents path) = some s.root := by
    rw [hroot]
    rfl
  exact findDirectory_of_walk hlive hwalk ⟨a, ha, (h hlive).root_directory ha⟩

theorem components_of_root (h : Shaped s) (hlive : s.nodes.live s.root = true)
    (hfind : vfsFindNode s path = .ok (some s.root)) : pathComponents path = [] := by
  have hwalk := (vfsFindNode_ok hfind).2
  cases hp : pathComponents path with
  | nil => rfl
  | cons name names =>
    rw [hp] at hwalk
    exact absurd ((h hlive).tree.walk_lt hwalk) (Nat.lt_irrefl _)

theorem vmGetcwd_root (h : Shaped s) (hlive : s.nodes.live s.root = true) :
    vmGetcwd s = .ok [slash] := by
  have horphan : Forest.parentOf s.nodes s.root = none :=
    ((h hlive).tree.rooted hlive).mpr rfl
  rw [vmGetcwd, currentDir, if_pos hlive, cwdFrom_orphan horphan]
  rfl

theorem coherent_iff (h : Shaped s) :
    Coherent s ↔ s.nodes.live s.root = true ∧ pathComponents s.currentDirectory = [] := by
  constructor
  · rintro ⟨n, path, hdir, hcwd, hfind⟩
    obtain ⟨hlive, hwalk, _⟩ := findDirectory_ok_some hdir
    refine ⟨hlive, components_of_root h hlive ?_⟩
    obtain rfl := Except.ok.inj ((vmGetcwd_root h hlive).symm.trans hcwd)
    have hslash : vfsFindNode s [slash] = .ok (some s.root) := vfsFindNode_of_live hlive
    obtain rfl := Option.some.inj (Except.ok.inj (hslash.symm.trans hfind))
    rw [vfsFindNode_of_live hlive]
    exact congrArg Except.ok hwalk
  · rintro ⟨hlive, hroot⟩
    exact ⟨s.root, [slash], findDirectory_root h hlive hroot, vmGetcwd_root h hlive,
      vfsFindNode_of_live hlive⟩

end Root

section Steps

variable {s s' : VfsState} {path : Bytes} {r : Int} {n parent : Nat}

structure RootKept (s s' : VfsState) : Prop where
  live : s'.nodes.live s'.root = true
  cwd : s'.currentDirectory = s.currentDirectory

theorem rootKept_addNode (hp : IsDirectory s.nodes parent) (v : Attr)
    (hlive : s.nodes.live s.root = true) : RootKept s (addNode s parent v) := by
  rw [addNode_eq]
  exact ⟨(Forest.live_link hp.live v s.root).mpr (.inr hlive), rfl⟩

theorem rootKept_mkdir (hlive : s.nodes.live s.root = true)
    (hcall : vfsMkdir s path = .ok (r, s')) : RootKept s s' := by
  rcases vfsMkdir_cases hcall with rfl | ⟨_, _, _, _, hfind, _, _, rfl⟩
  · exact ⟨hlive, rfl⟩
  · exact rootKept_addNode (isDirectory_of_find hfind) _ hlive

theorem rootKept_createFile (hlive : s.nodes.live s.root = true)
    (hcall : vfsCreateFile s path = .ok (r, s')) : RootKept s s' := by
  rcases vfsCreateFile_cases hcall with ⟨_, rfl⟩ | ⟨_, _, _, _, hfind, _, rfl⟩
  · exact ⟨hlive, rfl⟩
  · exact rootKept_addNode (isDirectory_of_find hfind) _ hlive

theorem rootKept_deleteFile (h : Shaped s) (hlive : s.nodes.live s.root = true)
    (hcall : vfsDeleteFile s path = .ok (r, s')) : RootKept s s' := by
  rcases vfsDeleteFile_cases hcall with ⟨_, rfl⟩ | ⟨n, a, _, _, ha, hfile, _, _, rfl⟩
  · exact ⟨hlive, rfl⟩
  · have hne : s.root ≠ n := by
      rintro rfl
      exact Bool.false_ne_true (hfile.symm.trans ((h hlive).root_directory ha))
    exact ⟨Forest.live_unlink.mpr ⟨hne, hlive⟩, rfl⟩

theorem rootKept_rmdir (h : Shaped s) (hlive : s.nodes.live s.root = true)
    (hcall : vfsRmdir s path = .ok (r, s'))
    (hkeep : pathComponents path ≠ [] ∨ Forest.childrenOf s.nodes s.root ≠ []) : RootKept s s' := by
  rcases vfsRmdir_cases hcall with ⟨_, rfl⟩ | ⟨n, _, hfind, _, _, hleaf, _, rfl⟩
  · exact ⟨hlive, rfl⟩
  · have hne : s.root ≠ n := by
      rintro rfl
      rcases hkeep with hpath | hchildren
      · exact hpath (components_of_root h hlive hfind)
      · exact hchildren hleaf
    exact ⟨Forest.live_unlink.mpr ⟨hne, hlive⟩, rfl⟩

theorem RootKept.coherent (hkept : RootKept s s') (h : Shaped s) (h' : Shaped s') (hs : Coherent s) :
    Coherent s' := by
  obtain ⟨_, hroot⟩ := (coherent_iff h).mp hs
  exact (coherent_iff h').mpr ⟨hkept.live, by rw [hkept.cwd, hroot]⟩

theorem rmdir_root (h : Shaped s) (hlive : s.nodes.live s.root = true)
    (hpath : pathComponents path = []) (hleaf : Forest.childrenOf s.nodes s.root = [])
    (hcall : vfsRmdir s path = .ok (r, s')) : s'.nodes.live s'.root = false := by
  obtain ⟨found, hfind, hrest⟩ := Outcome.bind_eq_ok.mp hcall
  have hroot : vfsFindNode s path = .ok (some s.root) := by
    rw [vfsFindNode_of_live hlive, hpath]
    rfl
  obtain rfl := Except.ok.inj (hroot.symm.trans hfind)
  obtain ⟨a, ha, hrest⟩ := Outcome.bind_eq_ok.mp hrest
  have hdir : a.isDirectory = true := (h hlive).root_directory (nodeAt_ok ha)
  rw [hdir, hleaf] at hrest
  obtain ⟨_, rfl⟩ := Prod.mk.inj (Except.ok.inj hrest)
  apply Bool.eq_false_iff.mpr
  intro hstill
  exact (Forest.live_unlink.mp hstill).1 rfl

theorem coherent_rmdir_iff (h : Shaped s) (hs : Coherent s)
    (hcall : vfsRmdir s path = .ok (r, s')) :
    Coherent s' ↔ keepsCwd s (.rmdir path) = true := by
  have hkeep : keepsCwd s (.rmdir path) = true ↔
      pathComponents path ≠ [] ∨ Forest.childrenOf s.nodes s.root ≠ [] := by simp [keepsCwd]
  have h' := shaped_rmdir h hcall
  have hlive := ((coherent_iff h).mp hs).1
  rw [hkeep]
  constructor
  · intro hs'
    by_contra hgone
    push Not at hgone
    have hlive' := ((coherent_iff h').mp hs').1
    exact Bool.false_ne_true ((rmdir_root h hlive hgone.1 hgone.2 hcall).symm.trans hlive')
  · exact fun hkept => (rootKept_rmdir h hlive hcall hkept).coherent h h' hs

theorem coherent_chdir_iff (h : Shaped s) (hs : Coherent s)
    (hcall : vfsChdir s path = .ok (r, s')) :
    Coherent s' ↔ keepsCwd s (.chdir path) = true := by
  have hlive := ((coherent_iff h).mp hs).1
  obtain ⟨found, hfind, hrest⟩ := Outcome.bind_eq_ok.mp ((vfsChdir_eq s path).symm.trans hcall)
  have hkeep : keepsCwd s (.chdir path) =
      (found.isNone || pathComponents (chdirPath s path) == []) := by
    rw [keepsCwd, hfind]
    cases found <;> rfl
  rw [hkeep]
  cases found with
  | none =>
    obtain ⟨_, rfl⟩ := Prod.mk.inj (Except.ok.inj hrest)
    exact iff_of_true hs rfl
  | some n =>
    obtain ⟨_, rfl⟩ := Prod.mk.inj (Except.ok.inj hrest)
    rw [coherent_iff (s := { s with currentDirectory := chdirPath s path }) h]
    simp [hlive]

theorem coherent_step_iff {c : VfsCall} (h : Shaped s) (hs : Coherent s)
    (hc : directoryCall c = true) (hcall : vfsCall s c = .ok (r, s')) :
    Coherent s' ↔ keepsCwd s c = true := by
  have h' := shaped_call h hcall
  have hlive := ((coherent_iff h).mp hs).1
  cases c with
  | chdir path => exact coherent_chdir_iff h hs hcall
  | mkdir path => exact iff_of_true ((rootKept_mkdir hlive hcall).coherent h h' hs) rfl
  | rmdir path => exact coherent_rmdir_iff h hs hcall
  | createFile path => exact iff_of_true ((rootKept_createFile hlive hcall).coherent h h' hs) rfl
  | deleteFile path => exact iff_of_true ((rootKept_deleteFile h hlive hcall).coherent h h' hs) rfl
  | _ => cases hc

end Steps

section Runs

variable {s : VfsState} {allowed : VfsState → VfsCall → Prop} {calls : List VfsCall}

theorem shaped_step {s' : VfsState} {c : VfsCall} (h : Shaped s) (hstep : vfsStep s c = some s') :
    Shaped s' := by
  obtain ⟨_, hcall⟩ := vfsStep_eq hstep
  exact shaped_call h hcall

theorem coherent_blank (junk : Attr) (host : Host) (clock : Nat) :
    Coherent (blankVfs junk host clock) := by
  have hsound := sound_blank junk host clock
  exact (coherent_iff fun _ => hsound.toShape).mpr ⟨hsound.tree.root_live, rfl⟩

theorem ReachableBy.shaped (h : ReachableBy allowed calls s) : Shaped s := h.consistent.shaped

theorem current_directory_coherent
    (h : ReachableBy (fun s c => directoryCall c = true ∧ keepsCwd s c = true) calls s) :
    Coherent s ∧ ∀ c s', directoryCall c = true → vfsStep s c = some s' →
      (Coherent s' ↔ keepsCwd s c = true) := by
  have hboth : Shaped s ∧ Coherent s := by
    refine h.invariant (P := fun s => Shaped s ∧ Coherent s) ?_ ?_ ?_
    · intro junk host clock
      exact ⟨fun _ => (sound_blank junk host clock).toShape, coherent_blank junk host clock⟩
    · intro s s' path r _ hs hcall
      have h' := shaped_mkdir hs.1 hcall
      exact ⟨h', (rootKept_mkdir ((coherent_iff hs.1).mp hs.2).1 hcall).coherent hs.1 h' hs.2⟩
    · intro s c s' hs hok hstep
      obtain ⟨_, hcall⟩ := vfsStep_eq hstep
      exact ⟨shaped_step hs.1 hstep, (coherent_step_iff hs.1 hs.2 hok.1 hcall).mpr hok.2⟩
  refine ⟨hboth.2, fun c s' hc hstep => ?_⟩
  obtain ⟨_, hcall⟩ := vfsStep_eq hstep
  exact coherent_step_iff hboth.1 hboth.2 hc hcall

end Runs

section Concrete

def keepingCalls : List VfsCall :=
  [.mkdir (str "/home/a"), .createFile (str "/home/a/f"), .chdir (str "nowhere"), .chdir (str "//"),
    .deleteFile (str "/home/a/f"), .rmdir (str "/home/a"), .chdir (str "/"), .rmdir (str "/tmp")]

theorem current_directory_coherent_tour :
    Coherent (ran (fun s c => directoryCall c && keepsCwd s c) (openHost []) keepingCalls) := by
  have hreach := reachableBy_ran (fun s c => directoryCall c && keepsCwd s c) (openHost [])
    keepingCalls (by decide +kernel) (by decide +kernel)
  exact (current_directory_coherent (hreach.mono fun s c h => by simpa using h)).1

theorem chdir_leaves_node :
    ¬ ∀ (calls : List VfsCall) (s : VfsState),
      ReachableBy (fun _ c => directoryCall c = true) calls s → Coherent s := by
  intro hall
  have hreach := reachableBy_ran (fun _ c => directoryCall c) (openHost []) [.chdir (str "/home")]
    (by decide +kernel) (by decide +kernel)
  have hcoherent := (coherent_iff hreach.shaped).mp (hall _ _ hreach)
  exact absurd hcoherent.2 (by decide +kernel)

end Concrete

end ZoraVM.Vfs
