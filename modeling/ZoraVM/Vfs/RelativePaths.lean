import ZoraVM.Vfs.CurrentDirectory
import ZoraVM.Vfs.Paths

namespace ZoraVM.Vfs

open Foundation

inductive PathCall where
  | findNode
  | mkdir
  | createFile
  | deleteFile
  | chdir
  deriving DecidableEq, Repr

section Model

variable (s : VfsState)

def createLocation (path : Bytes) : Outcome (List Bytes) := do
  let (parentPath, name) ← splitPath path
  .ok (pathComponents parentPath ++ [name])

-- The names, from the root down, of what a call takes its path for.
def location (path : Bytes) : PathCall → Outcome (List Bytes)
  | .findNode => .ok (pathComponents path)
  | .mkdir => createLocation path
  | .createFile => createLocation path
  | .deleteFile => .ok (pathComponents path)
  | .chdir => .ok (pathComponents (chdirPath s path))

def RelativeAgrees (path : Bytes) : Prop :=
  (∃ names, ∀ c, location s path c = .ok names) ∧
    ∀ s', vfsMkdir s path = .ok (0, s') → ∃ t, vfsChdir s' path = .ok (0, t)

end Model

section Condition

variable (s : VfsState)

-- What vfs_chdir puts before a relative path, and how much of the path then fits new_path.
def cwdBase : Bytes :=
  if s.currentDirectory = [slash] then [slash] else s.currentDirectory ++ [slash]

def cwdRoom : Nat := 255 - (cwdBase s).length

def JoinsAtRoot (path : Bytes) : Prop :=
  (pathComponents s.currentDirectory = [] ∧ path.length ≤ cwdRoom s) ∨
    (pathComponents s.currentDirectory ≠ [] ∧ cwdRoom s < path.length ∧
      pathComponents s.currentDirectory ++ tokens slash (path.take (cwdRoom s)) =
        tokens slash path)

def FileAt (names : List Bytes) : Prop :=
  ∃ n a, Forest.walk Attr.name s.nodes s.root names = some n ∧ Forest.valAt s.nodes n = some a ∧
    a.isDirectory = false

end Condition

section Locations

variable {s : VfsState} {path p q : Bytes}

theorem findDirectory_congr (h : pathComponents p = pathComponents q) :
    findDirectory s p = findDirectory s q := by
  simp only [findDirectory, vfsFindNode, h]

theorem createLocation_split {names : List Bytes} (h : createLocation p = .ok names) :
    ∃ dir name, splitPath p = .ok (dir, name) ∧ names = pathComponents dir ++ [name] := by
  obtain ⟨⟨dir, name⟩, hsplit, hrest⟩ := Outcome.bind_eq_ok.mp h
  exact ⟨dir, name, hsplit, (Except.ok.inj hrest).symm⟩

theorem createLocation_eq_iff (path : Bytes) :
    createLocation path = .ok (pathComponents path) ↔ NamesEntry path ∧ path.length < 256 := by
  constructor
  · intro h
    obtain ⟨dir, name, hsplit, hnames⟩ := createLocation_split h
    have hname : name ≠ [] := by
      have hmem : name ∈ pathComponents path := by simp [hnames]
      exact (mem_tokens hmem).2
    have hentry : NamesEntry path := (namesEntry_split hsplit).mpr hname
    have htokens : tokens slash (path.take 255) = tokens slash path := by
      have hone := tokens_of_not_mem (splitPath_ok hsplit).2.1 hname
      rw [tokens_split hsplit, hone, ← hnames]
      rfl
    exact ⟨hentry, Nat.lt_succ_of_le ((tokens_take_eq_iff hentry 255).mp htokens)⟩
  · rintro ⟨hentry, hshort⟩
    obtain ⟨dir, name, hsplit⟩ := splitPath_of_short hshort
    have hname : name ≠ [] := (namesEntry_split hsplit).mp hentry
    have hone := tokens_of_not_mem (splitPath_ok hsplit).2.1 hname
    rw [pathComponents_of_short hshort, tokens_split hsplit, hone, createLocation, hsplit]
    rfl

theorem chdirPath_components (h : path.head? ≠ some slash) :
    pathComponents (chdirPath s path) =
      pathComponents s.currentDirectory ++ tokens slash (path.take (cwdRoom s)) := by
  rw [chdirPath, if_neg h, cwdRoom, cwdBase]
  by_cases hcwd : s.currentDirectory = [slash]
  · have hroot : pathComponents [slash] = [] := rfl
    rw [if_pos hcwd, if_pos hcwd, pathComponents, clip_clip, hcwd, hroot]
    exact tokens_take_append [] path 255
  · rw [if_neg hcwd, if_neg hcwd, pathComponents, clip_clip, List.length_append]
    exact tokens_take_append s.currentDirectory path 255

theorem joinsAtRoot_iff (hname : NamesEntry path) (hrel : path.head? ≠ some slash) :
    pathComponents (chdirPath s path) = tokens slash path ↔ JoinsAtRoot s path := by
  rw [chdirPath_components hrel, JoinsAtRoot]
  by_cases hcwd : pathComponents s.currentDirectory = []
  · simp only [hcwd, List.nil_append, tokens_take_eq_iff hname]
    simp
  · have hlong : pathComponents s.currentDirectory ++ tokens slash (path.take (cwdRoom s)) =
        tokens slash path → cwdRoom s < path.length := by
      intro heq
      by_contra hfit
      rw [List.take_of_length_le (by omega)] at heq
      exact hcwd (List.append_left_eq_self.mp heq)
    simp only [hcwd, false_and, false_or, ne_eq, not_false_eq_true, true_and]
    exact ⟨fun heq => ⟨hlong heq, heq⟩, And.right⟩

theorem createLocation_congr (h : createLocation p = createLocation q) :
    (∃ e, splitPath p = .error e ∧ splitPath q = .error e) ∨
      ∃ dir dir' name, splitPath p = .ok (dir, name) ∧ splitPath q = .ok (dir', name) ∧
        pathComponents dir = pathComponents dir' := by
  cases hp : splitPath p with
  | error e =>
    cases hq : splitPath q with
    | error e' =>
      simp only [createLocation, hp, hq, bind, Except.bind, Except.error.injEq] at h
      exact .inl ⟨e, rfl, by rw [h]⟩
    | ok parts => simp [createLocation, hp, hq, bind, Except.bind] at h
  | ok parts =>
    cases hq : splitPath q with
    | error e => simp [createLocation, hp, hq, bind, Except.bind] at h
    | ok parts' =>
      simp only [createLocation, hp, hq, bind, Except.bind, Except.ok.injEq] at h
      obtain ⟨hdir, hname⟩ := List.append_inj' h rfl
      refine .inr ⟨parts.1, parts'.1, parts.2, rfl, ?_, hdir⟩
      rw [List.singleton_inj.mp hname]

theorem vfsMkdir_congr (h : createLocation p = createLocation q) : vfsMkdir s p = vfsMkdir s q := by
  rcases createLocation_congr h with ⟨e, hp, hq⟩ | ⟨dir, dir', name, hp, hq, hdir⟩
  · simp [vfsMkdir, hp, hq, bind, Except.bind]
  · simp [vfsMkdir, hp, hq, findDirectory_congr (s := s) hdir, bind, Except.bind]

theorem vfsCreateFile_congr (h : createLocation p = createLocation q) :
    vfsCreateFile s p = vfsCreateFile s q := by
  rcases createLocation_congr h with ⟨e, hp, hq⟩ | ⟨dir, dir', name, hp, hq, hdir⟩
  · simp [vfsCreateFile, hp, hq, bind, Except.bind]
  · simp [vfsCreateFile, hp, hq, findDirectory_congr (s := s) hdir, bind, Except.bind]

theorem location_decides (h : ∀ c, location s p c = location s q c) :
    vfsFindNode s p = vfsFindNode s q ∧ vfsMkdir s p = vfsMkdir s q ∧
      vfsCreateFile s p = vfsCreateFile s q ∧ vfsDeleteFile s p = vfsDeleteFile s q ∧
      Prod.fst <$> vfsChdir s p = Prod.fst <$> vfsChdir s q := by
  have hfind : vfsFindNode s p = vfsFindNode s q := by
    simp only [vfsFindNode, Except.ok.inj (h .findNode)]
  refine ⟨hfind, ?_, ?_, ?_, ?_⟩
  · exact vfsMkdir_congr (h .mkdir)
  · exact vfsCreateFile_congr (h .createFile)
  · simp only [vfsDeleteFile, hfind]
  · have hdir := findDirectory_congr (s := s) (Except.ok.inj (h .chdir))
    rw [vfsChdir_eq, vfsChdir_eq, hdir]
    cases findDirectory s (chdirPath s q) with
    | error e => rfl
    | ok found => cases found <;> rfl

theorem location_of_absolute (habs : path.head? = some slash) (hname : NamesEntry path)
    (hshort : path.length < 256) (c : PathCall) :
    location s path c = .ok (pathComponents path) := by
  have hcreate := (createLocation_eq_iff path).mpr ⟨hname, hshort⟩
  cases c with
  | findNode => rfl
  | mkdir => exact hcreate
  | createFile => exact hcreate
  | deleteFile => rfl
  | chdir => rw [location, chdirPath, if_pos habs, pathComponents, clip_clip, pathComponents]

end Locations

section MkdirChdir

variable {s s' : VfsState} {path dir name : Bytes} {n parent : Nat}

theorem vfsChdir_zero :
    (∃ t, vfsChdir s path = .ok (0, t)) ↔ ∃ n, findDirectory s (chdirPath s path) = .ok (some n) := by
  rw [vfsChdir_eq]
  constructor
  · rintro ⟨t, hchdir⟩
    obtain ⟨found, hfind, hrest⟩ := Outcome.bind_eq_ok.mp hchdir
    cases found with
    | none => cases hrest
    | some n => exact ⟨n, hfind⟩
  · rintro ⟨n, hfind⟩
    exact ⟨_, Outcome.bind_eq_ok.mpr ⟨some n, hfind, rfl⟩⟩

theorem vfsMkdir_zero (h : vfsMkdir s path = .ok (0, s')) :
    ∃ dir name parent, splitPath path = .ok (dir, name) ∧
      findDirectory s dir = .ok (some parent) ∧
      ((∃ n, Forest.childNamed Attr.name s.nodes parent name = some n ∧ s' = s) ∨
        (Forest.childNamed Attr.name s.nodes parent name = none ∧
          s' = addNode s parent (vfsCreateDirectoryNode s name))) := by
  obtain ⟨⟨dir, name⟩, hsplit, hrest⟩ := Outcome.bind_eq_ok.mp h
  obtain ⟨found, hfind, hrest⟩ := Outcome.bind_eq_ok.mp hrest
  cases found with
  | none => cases hrest
  | some parent =>
    refine ⟨dir, name, parent, hsplit, hfind, ?_⟩
    dsimp only at hrest
    cases hnamed : Forest.childNamed Attr.name s.nodes parent name with
    | some n =>
      rw [hnamed] at hrest
      exact .inl ⟨n, rfl, (Prod.mk.inj (Except.ok.inj hrest)).2.symm⟩
    | none =>
      rw [hnamed] at hrest
      exact .inr ⟨rfl, (Prod.mk.inj (Except.ok.inj hrest)).2.symm⟩

theorem vfsMkdir_existing (hsplit : splitPath path = .ok (dir, name))
    (hfind : findDirectory s dir = .ok (some parent))
    (hnamed : Forest.childNamed Attr.name s.nodes parent name = some n) :
    vfsMkdir s path = .ok (0, s) := by
  simp [vfsMkdir, hsplit, hfind, hnamed, bind, Except.bind]

theorem live_of_walk {names : List Bytes}
    (hwalk : Forest.walk Attr.name s.nodes s.root names = some n) (hne : names ≠ []) :
    s.nodes.live s.root = true := by
  cases names with
  | nil => exact absurd rfl hne
  | cons k ks =>
    obtain ⟨c, hc, _⟩ := Option.bind_eq_some_iff.mp hwalk
    have hmem := (Forest.childNamed_eq_some hc).1
    cases hget : s.nodes.get s.root with
    | none => simp [Forest.childrenOf, hget] at hmem
    | some cell => simp [Heap.live, hget]

theorem chdir_after_mkdir (h : Shaped s) (hcreate : createLocation path = .ok (pathComponents path))
    (hchdir : pathComponents (chdirPath s path) = pathComponents path)
    (hfile : ¬ FileAt s (pathComponents path)) (hmkdir : vfsMkdir s path = .ok (0, s')) :
    ∃ t, vfsChdir s' path = .ok (0, t) := by
  obtain ⟨dir, name, parent, hsplit, hfind, hmade⟩ := vfsMkdir_zero hmkdir
  obtain ⟨hlive, hwalk, hparent⟩ := findDirectory_ok_some hfind
  have htree := (h hlive).tree
  have hnames : pathComponents path = pathComponents dir ++ [name] := by
    obtain ⟨dir', name', hsplit', hnames⟩ := createLocation_split hcreate
    obtain ⟨rfl, rfl⟩ := Prod.mk.inj (Except.ok.inj (hsplit.symm.trans hsplit'))
    exact hnames
  apply vfsChdir_zero.mpr
  rcases hmade with ⟨n, hnamed, rfl⟩ | ⟨hfree, rfl⟩
  · have hreach : Forest.walk Attr.name s'.nodes s'.root (pathComponents path) = some n := by
      rw [hnames, Forest.walk_concat, hwalk]
      exact hnamed
    obtain ⟨a, ha⟩ := Forest.live_iff_valAt.mp (htree.live_walk hlive hreach)
    have hdir : a.isDirectory = true := by
      by_contra hno
      exact hfile ⟨n, a, hreach, ha, Bool.eq_false_iff.mpr hno⟩
    exact ⟨n, findDirectory_of_walk hlive (hchdir ▸ hreach) ⟨a, ha, hdir⟩⟩
  · have hp : IsDirectory s.nodes parent := hparent
    have hkey : (vfsCreateDirectoryNode s name).name = name :=
      clip_of_length_lt (name_of_split hsplit)
    rw [addNode_eq]
    refine ⟨s.nodes.size, findDirectory_of_walk ?_ ?_ (isDirectory_fresh hp rfl)⟩
    · exact (Forest.live_link hp.live _ s.root).mpr (.inr hlive)
    · change Forest.walk Attr.name (Forest.link s.nodes parent _) s.root
        (pathComponents (chdirPath s path)) = _
      rw [hchdir, hnames, Forest.walk_concat, htree.walk_link hp.live hwalk, Option.bind_some,
        Forest.childNamed_link htree hp.live, if_pos ⟨rfl, hkey⟩]

theorem no_file_of_chdir (h : Shaped s) (hcreate : createLocation path = .ok (pathComponents path))
    (hchdir : pathComponents (chdirPath s path) = pathComponents path)
    (hall : ∀ s', vfsMkdir s path = .ok (0, s') → ∃ t, vfsChdir s' path = .ok (0, t)) :
    ¬ FileAt s (pathComponents path) := by
  rintro ⟨n, a, hwalk, ha, hfile⟩
  obtain ⟨dir, name, hsplit, hnames⟩ := createLocation_split hcreate
  have hlive : s.nodes.live s.root = true := live_of_walk hwalk (by simp [hnames])
  have hreach := hwalk
  rw [hnames, Forest.walk_concat] at hreach
  obtain ⟨parent, hparent, hnamed⟩ := Option.bind_eq_some_iff.mp hreach
  obtain ⟨b, hb⟩ := Forest.live_iff_valAt.mp ((h hlive).tree.live_walk hlive hparent)
  have hdir : b.isDirectory = true := by
    by_contra hno
    have hleaf := (h hlive).leaves hb (Bool.eq_false_iff.mpr hno)
    exact absurd hnamed (by simp [Forest.childNamed_of_leaf hleaf])
  have hfind := findDirectory_of_walk hlive hparent ⟨b, hb, hdir⟩
  obtain ⟨m, hm⟩ := vfsChdir_zero.mp (hall s (vfsMkdir_existing hsplit hfind hnamed))
  obtain ⟨_, hwalk', c, hc, hcdir⟩ := findDirectory_ok_some hm
  rw [hchdir, hwalk] at hwalk'
  obtain rfl := Option.some.inj hwalk'
  obtain rfl := Option.some.inj (ha.symm.trans hc)
  exact Bool.false_ne_true (hfile.symm.trans hcdir)

end MkdirChdir

section Statements

variable {s : VfsState} {path : Bytes}

theorem Reachable.shaped (h : Reachable s) : Shaped s := by
  obtain ⟨_, hcalls⟩ := h
  exact hcalls.shaped

theorem locations_agree_iff (hrel : path.head? ≠ some slash) :
    (∃ names, ∀ c, location s path c = .ok names) ↔
      NamesEntry path ∧ path.length < 256 ∧ JoinsAtRoot s path := by
  constructor
  · rintro ⟨names, hall⟩
    obtain rfl := Except.ok.inj (hall .findNode)
    obtain ⟨hname, hshort⟩ := (createLocation_eq_iff path).mp (hall .mkdir)
    have hchdir := Except.ok.inj (hall .chdir)
    rw [pathComponents_of_short hshort] at hchdir
    exact ⟨hname, hshort, (joinsAtRoot_iff hname hrel).mp hchdir⟩
  · rintro ⟨hname, hshort, hjoin⟩
    have hcreate := (createLocation_eq_iff path).mpr ⟨hname, hshort⟩
    have hchdir := (joinsAtRoot_iff hname hrel).mpr hjoin
    refine ⟨pathComponents path, fun c => ?_⟩
    cases c with
    | findNode => rfl
    | mkdir => exact hcreate
    | createFile => exact hcreate
    | deleteFile => rfl
    | chdir => rw [location, hchdir, pathComponents_of_short hshort]

theorem relative_path_agrees_iff (h : Reachable s) (hrel : path.head? ≠ some slash) :
    RelativeAgrees s path ↔ NamesEntry path ∧ path.length < 256 ∧ JoinsAtRoot s path ∧
      ¬ FileAt s (tokens slash path) := by
  constructor
  · rintro ⟨hloc, hall⟩
    obtain ⟨hname, hshort, hjoin⟩ := (locations_agree_iff hrel).mp hloc
    have hcreate := (createLocation_eq_iff path).mpr ⟨hname, hshort⟩
    have hchdir := (joinsAtRoot_iff hname hrel).mpr hjoin
    have hpath := pathComponents_of_short hshort
    exact ⟨hname, hshort, hjoin,
      hpath ▸ no_file_of_chdir h.shaped hcreate (hchdir.trans hpath.symm) hall⟩
  · rintro ⟨hname, hshort, hjoin, hfile⟩
    have hcreate := (createLocation_eq_iff path).mpr ⟨hname, hshort⟩
    have hchdir := (joinsAtRoot_iff hname hrel).mpr hjoin
    have hpath := pathComponents_of_short hshort
    refine ⟨(locations_agree_iff hrel).mpr ⟨hname, hshort, hjoin⟩, fun s' hmkdir => ?_⟩
    exact chdir_after_mkdir h.shaped hcreate (hchdir.trans hpath.symm) (hpath ▸ hfile) hmkdir

theorem relative_as_absolute (hrel : path.head? ≠ some slash) (hagree : RelativeAgrees s path)
    (hroom : path.length < 255) :
    vfsFindNode s path = vfsFindNode s (slash :: path) ∧
      vfsMkdir s path = vfsMkdir s (slash :: path) ∧
      vfsCreateFile s path = vfsCreateFile s (slash :: path) ∧
      vfsDeleteFile s path = vfsDeleteFile s (slash :: path) ∧
      Prod.fst <$> vfsChdir s path = Prod.fst <$> vfsChdir s (slash :: path) := by
  obtain ⟨names, hnames⟩ := hagree.1
  obtain ⟨hname, hshort, _⟩ := (locations_agree_iff hrel).mp hagree.1
  have habs : NamesEntry (slash :: path) := by
    obtain ⟨c, hc, hcs⟩ := hname
    exact ⟨c, by simp [List.getLast?_cons, hc], hcs⟩
  have hlong : (slash :: path).length < 256 := by
    rw [List.length_cons]
    omega
  apply location_decides
  intro c
  rw [hnames c, ← hnames .findNode, location_of_absolute rfl habs hlong, location,
    pathComponents_of_short hshort, pathComponents_of_short hlong, tokens_cons_self]

end Statements

section Concrete

def plainDir : VfsState :=
  ran (fun _ _ => true) (openHost []) [.chdir (str "//"), .mkdir (str "home/a")]

theorem reachable_plainDir : Reachable plainDir := by
  have hreach := reachableBy_ran (fun _ _ => true) (openHost [])
    [.chdir (str "//"), .mkdir (str "home/a")] (by decide +kernel) (by decide +kernel)
  exact ⟨_, hreach.mono fun _ _ _ => trivial⟩

theorem relative_path_agrees_iff_docs : RelativeAgrees plainDir (str "home/docs") := by
  refine (relative_path_agrees_iff reachable_plainDir (by decide +kernel)).mpr
    ⟨⟨115, by decide +kernel, by decide⟩, by decide +kernel,
      .inl ⟨by decide +kernel, by decide +kernel⟩, ?_⟩
  rintro ⟨n, a, hwalk, _, _⟩
  have hnone : Forest.walk Attr.name plainDir.nodes plainDir.root
      (tokens slash (str "home/docs")) = none := by decide +kernel
  cases hnone.symm.trans hwalk

def inHome : VfsState := ran (fun _ _ => true) (openHost []) [.chdir (str "/home")]

theorem reachable_inHome : Reachable inHome := by
  have hreach := reachableBy_ran (fun _ _ => true) (openHost []) [.chdir (str "/home")]
    (by decide +kernel) (by decide +kernel)
  exact ⟨_, hreach.mono fun _ _ _ => trivial⟩

theorem mkdir_elsewhere :
    ¬ ∀ (s : VfsState) (path : Bytes), Reachable s → path.head? ≠ some slash →
      (∀ name ∈ tokens slash path, name ≠ dot ∧ name ≠ dotDot) → RelativeAgrees s path := by
  intro hall
  have hagree := hall inHome (str "docs") reachable_inHome (by decide +kernel) (by decide +kernel)
  obtain ⟨names, hnames⟩ := hagree.1
  have hfind : [str "docs"] = names := Except.ok.inj (hnames .findNode)
  have hchdir : pathComponents (chdirPath inHome (str "docs")) = names :=
    Except.ok.inj (hnames .chdir)
  exact absurd (hfind.trans hchdir.symm) (by decide +kernel)

end Concrete

end ZoraVM.Vfs
