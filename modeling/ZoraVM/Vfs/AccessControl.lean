import ZoraVM.Vfs.ReadWrite

namespace ZoraVM.Vfs

open Foundation

def observed (s : VfsState) (path : Bytes) (reader : Identity) :
    Option (Bytes × BitVec 32 × Option Bytes) :=
  match vfsFindNode s path with
  | .ok (some n) =>
    (Forest.valAt s.nodes n).map fun a =>
      (a.owner, a.mode, readBytes { s with identity := reader } path)
  | _ => none

section Guard

def userCall : VfsCall → Bool
  | .writeFile _ _ => true
  | .deleteFile _ => true
  | .rmdir _ => true
  | .createFile _ => true
  | .createSymlink _ _ => true
  | .mkdir _ => true
  | .chmod _ _ => true
  | .chown _ _ _ => true
  | _ => false

variable (s : VfsState) (path : Bytes)

def sparesHostFile (hostPath : Bytes) : Bool :=
  match vfsFindNode s path with
  | .ok (some n) =>
    match Forest.valAt s.nodes n with
    | some a =>
      s.hostRootDirectory == [] || a.data.isSome ||
        a.hostPath.all fun q => Location.resolve q != Location.resolve hostPath
    | none => true
  | _ => true

def sparesPath (parent : Nat) (name : Bytes) : Bool :=
  !Forest.asks Attr.name s.nodes parent name s.root (pathComponents path)

def sparesFile : VfsCall → Bool
  | .createFile p =>
    match splitPath p with
    | .error _ => true
    | .ok (dir, name) =>
      match findDirectory s dir with
      | .ok (some parent) =>
        sparesPath s path parent name && sparesHostFile s path
          (vfsGetHostPath (vfsAddChild s parent (vfsCreateFileNode s name)) s.nodes.size)
      | _ => true
  | .createSymlink linkPath _ =>
    match findDirectory s (splitLinkPath linkPath).1 with
    | .ok (some parent) => sparesPath s path parent (splitLinkPath linkPath).2
    | _ => true
  | .deleteFile p =>
    match vfsFindNode s p with
    | .ok (some m) =>
      Forest.walk Attr.name s.nodes s.root (pathComponents path) != some m &&
        sparesHostFile s path (vfsGetHostPath s m)
    | _ => true
  | .writeFile p _ =>
    match vfsFindNode s p with
    | .ok (some m) =>
      match Forest.valAt s.nodes m with
      | some b =>
        !permits s.identity b s.identity.vfsCurrentUser (permWrite >>> 6) ||
          sparesHostFile s path (vfsGetHostPath s m)
      | none => true
    | _ => true
  | _ => true

end Guard

variable {s s' t u : VfsState} {path p : Bytes} {n m parent : Nat} {a v : Attr} {r : Int}

structure Kept (path : Bytes) (n : Nat) (a : Attr) (s s' : VfsState) : Prop where
  consistent : Consistent s'
  identity : s'.identity = s.identity
  find : vfsFindNode s' path = .ok (some n)
  node : Forest.valAt s'.nodes n = some a
  block : ∀ {p}, a.data = some p → s'.blocks.get p = s.blocks.get p
  hostFile : a.data = none → ∀ {q}, a.hostPath = some q → s'.host.openRead q = s.host.openRead q

theorem Kept.trans (h : Kept path n a s t) (h' : Kept path n a t u) : Kept path n a s u := by
  refine ⟨h'.consistent, h'.identity.trans h.identity, h'.find, h'.node, ?_, ?_⟩
  · exact fun hp => (h'.block hp).trans (h.block hp)
  · exact fun hdata _ hq => (h'.hostFile hdata hq).trans (h.hostFile hdata hq)

section Observation

theorem observed_eq (hfind : vfsFindNode s path = .ok (some n))
    (ha : Forest.valAt s.nodes n = some a) (hfile : a.isDirectory = false) (reader : Identity) :
    observed s path reader = some (a.owner, a.mode,
      if permits reader a reader.vfsCurrentUser (permRead >>> 6) = true then contentOf s a
      else none) := by
  have hread : readBytes { s with identity := reader } path =
      if permits reader a reader.vfsCurrentUser (permRead >>> 6) = true then contentOf s a
      else none := readBytes_of_file (s := { s with identity := reader }) hfind ha hfile
  simp [observed, hfind, ha, hread]

theorem Kept.observed (h : Kept path n a s s') (hfind : vfsFindNode s path = .ok (some n))
    (ha : Forest.valAt s.nodes n = some a) (hfile : a.isDirectory = false) (reader : Identity) :
    Vfs.observed s' path reader = Vfs.observed s path reader := by
  rw [observed_eq h.find h.node hfile, observed_eq hfind ha hfile]
  cases hdata : a.data with
  | some p => simp [contentOf, hdata, bytesAt, h.block hdata]
  | none =>
    have hload : loadable s' a = loadable s a := by
      unfold loadable
      cases hq : a.hostPath with
      | none => rfl
      | some q => simp [h.hostFile hdata hq]
    simp [contentOf, hdata, hload]

end Observation

section HostFiles

theorem syncedHost_file {b : Attr} (hb : Forest.valAt s.nodes m = some b)
    (hfile : b.isDirectory = false) (hroot : s.hostRootDirectory ≠ []) :
    syncedHost s m = (s.host.openWrite (vfsGetHostPath s m) (nodeContent s b)).2 := by
  simp [syncedHost, vfsSyncToHost, hroot, hb, hfile]

theorem syncedHost_directory {b : Attr} (hb : Forest.valAt s.nodes m = some b)
    (hdir : b.isDirectory = true) (hroot : s.hostRootDirectory ≠ []) :
    syncedHost s m = (vfsEnsureHostDirectory s.host (vfsGetHostPath s m)).2 := by
  simp [syncedHost, vfsSyncToHost, hroot, hb, hdir]

theorem openRead_ensure (h : Host) (path q : Bytes) :
    (vfsEnsureHostDirectory h path).2.openRead q = h.openRead q := by
  have hmade := h.openRead_createDirectory path q
  unfold vfsEnsureHostDirectory
  split
  · split
    · next h' hcall => rw [← hmade, hcall]
    · next h' hcall => rw [← hmade, hcall]
  · rfl
  · rfl

theorem valAt_addChild (hp : IsDirectory s.nodes parent) (v : Attr) :
    Forest.valAt (vfsAddChild s parent v).nodes s.nodes.size = some v := by
  simp [vfsAddChild, Forest.valAt_link hp.live]

theorem openRead_added_directory (hp : IsDirectory s.nodes parent) (hdir : v.isDirectory = true)
    (q : Bytes) : (addedHost s parent v).openRead q = s.host.openRead q := by
  unfold addedHost
  split
  · rfl
  · next hroot =>
    rw [syncedHost_directory (valAt_addChild hp v) hdir hroot]
    exact openRead_ensure _ _ q

theorem openRead_added_file (hp : IsDirectory s.nodes parent) (hfile : v.isDirectory = false)
    {q : Bytes} (hne : s.hostRootDirectory ≠ [] → Location.resolve q ≠
      Location.resolve (vfsGetHostPath (vfsAddChild s parent v) s.nodes.size)) :
    (addedHost s parent v).openRead q = s.host.openRead q := by
  unfold addedHost
  split
  · rfl
  · next hroot =>
    rw [syncedHost_file (valAt_addChild hp v) hfile hroot, Host.openRead_openWrite,
      if_neg fun hsame => hne hroot hsame.2]
    rfl

end HostFiles

section Calls

variable (hc : Consistent s) (hfind : vfsFindNode s path = .ok (some n))
  (ha : Forest.valAt s.nodes n = some a)

include hfind ha

theorem spared_ne {hostPath q : Bytes} (hspares : sparesHostFile s path hostPath = true)
    (hroot : s.hostRootDirectory ≠ []) (hdata : a.data = none) (hq : a.hostPath = some q) :
    Location.resolve q ≠ Location.resolve hostPath := by
  simpa [sparesHostFile, hfind, ha, hroot, hdata, hq] using hspares

include hc

theorem Kept.refl : Kept path n a s s := ⟨hc, rfl, hfind, ha, fun _ => rfl, fun _ _ _ => rfl⟩

theorem kept_link {host : Host} {name : Bytes} (hp : IsDirectory s.nodes parent)
    (hdata : v.data = none) (hname : v.name = name)
    (hspares : sparesPath s path parent name = true)
    (hhost : a.data = none → ∀ {q}, a.hostPath = some q → host.openRead q = s.host.openRead q) :
    Kept path n a s { s with nodes := Forest.link s.nodes parent v, host := host } := by
  obtain ⟨hlive, hwalk⟩ := vfsFindNode_ok hfind
  have hs := hc hlive
  have hn := Forest.live_iff_valAt.mpr ⟨a, ha⟩
  refine ⟨fun _ => hs.link hp hdata, rfl, ?_, ?_, fun _ => rfl, hhost⟩
  · rw [vfsFindNode_of_live ((Forest.live_link hp.live v s.root).mpr (.inr hlive)),
      hs.tree.walk_link_of_not_asks hp.live (by simpa [sparesPath, hname] using hspares), hwalk]
  · rw [Forest.valAt_link_of_live hp.live v hn, ha]

theorem kept_createFile (hcall : vfsCreateFile s p = .ok (r, s'))
    (hspares : sparesFile s path (.createFile p) = true) : Kept path n a s s' := by
  rcases vfsCreateFile_cases hcall with ⟨_, rfl⟩ | ⟨dir, name, parent, hsplit, hdir, _, rfl⟩
  · exact .refl hc hfind ha
  · obtain ⟨hpath, hhost⟩ : sparesPath s path parent name = true ∧ sparesHostFile s path
        (vfsGetHostPath (vfsAddChild s parent (vfsCreateFileNode s name)) s.nodes.size) = true := by
      simpa [sparesFile, hsplit, hdir] using hspares
    have hname : (vfsCreateFileNode s name).name = name := clip_of_length_lt (name_of_split hsplit)
    have hp := isDirectory_of_find hdir
    rw [addNode_eq]
    refine kept_link hc hfind ha hp rfl hname hpath fun hdata q hq => ?_
    exact openRead_added_file hp rfl fun hroot => spared_ne hfind ha hhost hroot hdata hq

theorem kept_mkdir (hcall : vfsMkdir s p = .ok (r, s')) : Kept path n a s s' := by
  rcases vfsMkdir_cases hcall with rfl | ⟨dir, name, parent, hsplit, hdir, hfree, _, rfl⟩
  · exact .refl hc hfind ha
  · have hname : (vfsCreateDirectoryNode s name).name = name :=
      clip_of_length_lt (name_of_split hsplit)
    have hp := isDirectory_of_find hdir
    -- A name that is still free is not part of a path that leads somewhere.
    have hpath : sparesPath s path parent name = true := by
      by_contra hasks
      obtain ⟨c, hchild⟩ := Forest.childNamed_of_asks (vfsFindNode_ok hfind).2
        (by simpa [sparesPath] using hasks)
      cases hfree.symm.trans hchild
    rw [addNode_eq]
    exact kept_link hc hfind ha hp rfl hname hpath fun _ _ _ => openRead_added_directory hp rfl _

theorem kept_createSymlink {target : Bytes} (hcall : vfsCreateSymlink s p target = .ok (r, s'))
    (hspares : sparesFile s path (.createSymlink p target) = true) : Kept path n a s s' := by
  rcases vfsCreateSymlink_cases hcall with rfl | ⟨parent, hdir, rfl⟩
  · exact .refl hc hfind ha
  · have hpath : sparesPath s path parent (splitLinkPath p).2 = true := by
      simpa [sparesFile, hdir] using hspares
    have hname : (vfsSymlinkNode s (splitLinkPath p).2 target).name = (splitLinkPath p).2 := by
      unfold splitLinkPath
      cases splitLast slash p <;> exact clip_clip 256 _
    exact kept_link hc hfind ha (isDirectory_of_find hdir) rfl hname hpath fun _ _ _ => rfl

theorem kept_unlink {host : Host} {blocks : Heap Bytes} (hm : m ≠ n)
    (hleaf : Forest.childrenOf s.nodes m = [])
    (hconsistent : Consistent { s with
      nodes := Forest.unlink s.nodes m, host := host, blocks := blocks })
    (hblock : ∀ {p}, a.data = some p → blocks.get p = s.blocks.get p)
    (hhost : a.data = none → ∀ {q}, a.hostPath = some q → host.openRead q = s.host.openRead q)
    (hroot : m ≠ s.root) :
    Kept path n a s { s with
      nodes := Forest.unlink s.nodes m, host := host, blocks := blocks } := by
  obtain ⟨hlive, hwalk⟩ := vfsFindNode_ok hfind
  have hs := hc hlive
  refine ⟨hconsistent, rfl, ?_, ?_, hblock, hhost⟩
  · rw [vfsFindNode_of_live (Forest.live_unlink.mpr ⟨hroot.symm, hlive⟩),
      hs.tree.walk_unlink hleaf hwalk hm.symm]
  · rw [Forest.valAt_unlink, if_neg hm.symm, ha]

theorem kept_deleteFile (hcall : vfsDeleteFile s p = .ok (r, s'))
    (hspares : sparesFile s path (.deleteFile p) = true) : Kept path n a s s' := by
  have hconsistent := consistent_deleteFile hc hcall
  rcases vfsDeleteFile_cases hcall with ⟨_, rfl⟩ | ⟨m, b, blocks, hm, hb, hfile, hfree, _, rfl⟩
  · exact .refl hc hfind ha
  · obtain ⟨hlive, hwalk⟩ := vfsFindNode_ok hfind
    have hs := hc hlive
    obtain ⟨hne, hhost⟩ : n ≠ m ∧ sparesHostFile s path (vfsGetHostPath s m) = true := by
      simpa [sparesFile, hm, hwalk] using hspares
    have hroot : m ≠ s.root := by
      rintro rfl
      exact Bool.false_ne_true (hfile.symm.trans (hs.root_directory hb))
    refine kept_unlink hc hfind ha hne.symm (hs.leaves hb hfile) hconsistent
      (fun hdata => hs.freed_keeps hb hfree hne ha hdata) (fun hdata q hq => ?_) hroot
    split
    · rfl
    · next hset => exact Host.openRead_deleteFile _ (spared_ne hfind ha hhost hset hdata hq)

theorem kept_rmdir (hfile : a.isDirectory = false) (hcall : vfsRmdir s p = .ok (r, s')) :
    Kept path n a s s' := by
  have hconsistent := consistent_rmdir hc hcall
  rcases vfsRmdir_cases hcall with ⟨_, rfl⟩ | ⟨m, b, hm, hb, hdir, hleaf, _, rfl⟩
  · exact .refl hc hfind ha
  · obtain ⟨hlive, hwalk⟩ := vfsFindNode_ok hfind
    have hs := hc hlive
    have hne : m ≠ n := by
      rintro rfl
      rw [hb] at ha
      obtain rfl := Option.some.inj ha
      exact Bool.false_ne_true (hfile.symm.trans hdir)
    have hroot : m ≠ s.root := by
      rintro rfl
      cases hnames : pathComponents path with
      | nil =>
        rw [hnames] at hwalk
        exact hne (Option.some.inj hwalk)
      | cons name names =>
        rw [hnames, Forest.walk, Forest.childNamed_of_leaf hleaf] at hwalk
        cases hwalk
    refine kept_unlink hc hfind ha hne hleaf hconsistent (fun _ => rfl) (fun _ q _ => ?_) hroot
    split
    · rfl
    · exact Host.openRead_removeDirectory _ _ q

omit hc in
theorem kept_update {f : Attr → Attr} (hm : m ≠ n) (hf : ∀ b, (f b).name = b.name)
    (hconsistent : Consistent (updateNode s m f)) : Kept path n a s (updateNode s m f) := by
  obtain ⟨hlive, hwalk⟩ := vfsFindNode_ok hfind
  refine ⟨hconsistent, rfl, ?_, ?_, fun _ => rfl, fun _ _ _ => rfl⟩
  · have hlive' : (updateNode s m f).nodes.live (updateNode s m f).root = true :=
      (Forest.live_update s.nodes m s.root f).trans hlive
    rw [vfsFindNode_of_live hlive', updateNode, Forest.walk_update hf, hwalk]
  · rw [updateNode, Forest.valAt_update_of_ne _ hm.symm, ha]

theorem kept_written {b : Attr} {blocks : Heap Bytes} (hb : Forest.valAt s.nodes m = some b)
    (hfile : b.isDirectory = false) (hfree : freeData s.blocks b.data = .ok blocks)
    (content : Option Bytes) (hne : n ≠ m)
    (hspares : sparesHostFile s path (vfsGetHostPath s m) = true) :
    Kept path n a s (written s m blocks content) := by
  have hs := hc (vfsFindNode_ok hfind).1
  obtain ⟨hval, hblock⟩ := othersUnchanged_written hs hb hfree content n hne
  refine ⟨fun _ => sound_written hs hb hfree content, identity_written content, ?_, ?_, ?_, ?_⟩
  · rw [find_written, hfind]
  · rw [hval, ha]
  · exact fun hdata => hblock a _ ha hdata
  · intro hdata q hq
    rw [host_written blocks hb hfile content]
    split
    · rfl
    · next hset =>
      have hother := spared_ne hfind ha hspares hset hdata hq
      rw [Host.openRead_openWrite, if_neg fun hsame => hother hsame.2]

variable (hfile : a.isDirectory = false) (hroot : s.identity.vfsIsRoot = false)
  (howner : a.owner ≠ s.identity.vfsCurrentUser)
  (hdenied : permits s.identity a s.identity.vfsCurrentUser (permWrite >>> 6) = false)

include hdenied in
theorem kept_writeFile {data : Bytes}
    (hcall : vfsWriteFile s p (.bytes data) data.length = .ok (r, s'))
    (hspares : sparesFile s path (.writeFile p data) = true) : Kept path n a s s' := by
  rcases vfsWriteFile_cases hcall with
    ⟨_, rfl⟩ | ⟨m, b, blocks, content, hm, hb, hfile, hperm, hfree, _, _, rfl⟩
  · exact .refl hc hfind ha
  · have hne : n ≠ m := by
      rintro rfl
      rw [hb] at ha
      obtain rfl := Option.some.inj ha
      exact Bool.false_ne_true (hdenied.symm.trans hperm)
    have hhost : sparesHostFile s path (vfsGetHostPath s m) = true := by
      simpa [sparesFile, hm, hb, hperm] using hspares
    exact kept_written hc hfind ha hb hfile hfree content hne hhost

include hroot howner in
theorem kept_chmod {mode : BitVec 32} (hcall : vfsChmod s p mode = .ok (r, s')) :
    Kept path n a s s' := by
  have hconsistent := consistent_chmod hc hcall
  rcases vfsChmod_cases hcall with rfl | ⟨m, b, hm, hb, hmay, rfl⟩
  · exact .refl hc hfind ha
  · refine kept_update hfind ha ?_ (fun _ => rfl) hconsistent
    rintro rfl
    rw [hb] at ha
    obtain rfl := Option.some.inj ha
    rcases hmay with hmay | hmay
    · exact Bool.false_ne_true (hroot.symm.trans hmay)
    · exact howner hmay

include hroot in
theorem kept_chown {owner group : Option Bytes} (hcall : vfsChown s p owner group = .ok (r, s')) :
    Kept path n a s s' := by
  rcases vfsChown_cases hcall with rfl | ⟨m, _, hmay, _⟩
  · exact .refl hc hfind ha
  · exact absurd (hroot.symm.trans hmay) Bool.false_ne_true

include hfile hroot howner hdenied in
theorem kept_step {c : VfsCall} (hcall : userCall c = true) (hspares : sparesFile s path c = true)
    (hstep : vfsStep s c = some s') : Kept path n a s s' := by
  obtain ⟨r, hr⟩ := vfsStep_eq hstep
  cases c with
  | mkdir p => exact kept_mkdir hc hfind ha hr
  | createFile p => exact kept_createFile hc hfind ha hr hspares
  | createSymlink p target => exact kept_createSymlink hc hfind ha hr hspares
  | deleteFile p => exact kept_deleteFile hc hfind ha hr hspares
  | rmdir p => exact kept_rmdir hc hfind ha hfile hr
  | writeFile p data => exact kept_writeFile hc hfind ha hdenied hr hspares
  | chmod p mode => exact kept_chmod hc hfind ha hroot howner hr
  | chown p owner group => exact kept_chown hc hfind ha hroot hr
  | _ => cases hcall

end Calls

-- The mode of the parent directory does not matter, and neither does who looks in the end.
theorem observed_unchanged {calls : List VfsCall} (hreach : Reachable s)
    (hfind : vfsFindNode s path = .ok (some n)) (ha : Forest.valAt s.nodes n = some a)
    (hfile : a.isDirectory = false) (hroot : s.identity.vfsIsRoot = false)
    (howner : a.owner ≠ s.identity.vfsCurrentUser)
    (hdenied : permits s.identity a s.identity.vfsCurrentUser (permWrite >>> 6) = false)
    (hrun : Run vfsStep (fun t c => userCall c = true ∧ sparesFile t path c = true) s calls s')
    (reader : Identity) : observed s' path reader = observed s path reader := by
  obtain ⟨before, hbefore⟩ := hreach
  have hkept : Kept path n a s s' := by
    refine hrun.invariant (P := Kept path n a s) (.refl hbefore.consistent hfind ha) ?_
    intro t c t' ht hok hstep
    rw [← ht.identity] at hroot howner hdenied
    exact ht.trans (kept_step ht.consistent ht.find ht.node hfile hroot howner hdenied hok.1 hok.2
      hstep)
  exact hkept.observed hfind ha hfile reader

def rootsFile : VfsState :=
  ran (fun _ _ => true) (openHost [])
    [.identify ⟨str "root", str "root", true⟩, .mkdir (str "/etc/d"), .createFile (str "/etc/d/f"),
      .writeFile (str "/etc/d/f") (str "top"), .identify ⟨str "eve", str "users", false⟩]

def rootsAttr : Attr :=
  ⟨str "f", false, false, none, 3, some 0, none, defaultFilePerms, str "root", str "root", 0, 0⟩

theorem reachable_rootsFile : Reachable rootsFile := by
  have hreach := reachableBy_ran (fun _ _ => true) (openHost [])
    [.identify ⟨str "root", str "root", true⟩, .mkdir (str "/etc/d"), .createFile (str "/etc/d/f"),
      .writeFile (str "/etc/d/f") (str "top"), .identify ⟨str "eve", str "users", false⟩]
    (by decide +kernel) (by decide +kernel)
  exact ⟨_, hreach.mono fun _ _ _ => trivial⟩

theorem find_rootsFile : vfsFindNode rootsFile (str "/etc/d/f") = .ok (some 8) := by
  rw [vfsFindNode_of_live (by decide +kernel)]
  exact congrArg Except.ok (by decide +kernel)

theorem valAt_rootsFile : Forest.valAt rootsFile.nodes 8 = some rootsAttr := by decide +kernel

def evesCalls : List VfsCall :=
  [.createFile (str "/tmp/x"), .writeFile (str "/tmp/x") (str "hi"),
    .writeFile (str "/etc/d/f") (str "hi"), .chmod (str "/etc/d/f") 0o777,
    .chown (str "/etc/d/f") (some (str "eve")) none, .mkdir (str "/etc/d/f"),
    .createSymlink (str "/tmp/f") (str "/etc/d/f"), .deleteFile (str "/tmp/x"),
    .rmdir (str "/etc/d")]

def sparing (s : VfsState) (c : VfsCall) : Bool := userCall c && sparesFile s (str "/etc/d/f") c

theorem observed_unchanged_eve :
    observed ((exec (guarded vfsStep sparing) rootsFile evesCalls).getD rootsFile)
      (str "/etc/d/f") ⟨str "root", str "root", true⟩ =
        observed rootsFile (str "/etc/d/f") ⟨str "root", str "root", true⟩ := by
  have hrun : Run vfsStep (fun t c => sparing t c = true) rootsFile evesCalls
      ((exec (guarded vfsStep sparing) rootsFile evesCalls).getD rootsFile) :=
    Run.of_exec_isSome (by decide +kernel)
  exact observed_unchanged reachable_rootsFile find_rootsFile valAt_rootsFile rfl
    (by decide +kernel) (by decide +kernel) (by decide +kernel)
    (hrun.mono fun t c h => by simpa [sparing] using h) _

theorem delete_unchecked :
    ¬ ∀ (s s' : VfsState) (path : Bytes) (n parent : Nat) (a b : Attr) (calls : List VfsCall),
      Reachable s → vfsFindNode s path = .ok (some n) → Forest.valAt s.nodes n = some a →
      a.isDirectory = false → s.identity.vfsIsRoot = false →
      a.owner ≠ s.identity.vfsCurrentUser →
      permits s.identity a s.identity.vfsCurrentUser (permWrite >>> 6) = false →
      Forest.parentOf s.nodes n = some parent → Forest.valAt s.nodes parent = some b →
      permits s.identity b s.identity.vfsCurrentUser (permWrite >>> 6) = false →
      Run vfsStep (fun _ c => userCall c = true) s calls s' →
      ∀ reader, reader.vfsCurrentUser = a.owner → observed s' path reader = observed s path reader := by
  intro hall
  have hrun : Run vfsStep (fun _ c => userCall c = true) rootsFile [.deleteFile (str "/etc/d/f")]
      ((exec (guarded vfsStep fun _ c => userCall c) rootsFile
        [.deleteFile (str "/etc/d/f")]).getD rootsFile) := Run.of_exec_isSome (by decide +kernel)
  have hsame := hall rootsFile _ (str "/etc/d/f") 8 7 rootsAttr _ _ reachable_rootsFile
    find_rootsFile valAt_rootsFile rfl (by decide +kernel) (by decide +kernel) (by decide +kernel)
    (by decide +kernel) (Option.some_get (by decide +kernel)).symm (by decide +kernel) hrun
    ⟨str "root", str "root", true⟩ rfl
  exact absurd hsame (by decide +kernel)

end ZoraVM.Vfs
