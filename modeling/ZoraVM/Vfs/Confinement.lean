import ZoraVM.Vfs.ReadWrite

namespace ZoraVM.Vfs

open Foundation Location

def Confined (root : Bytes) (before after : Host) : Prop :=
  ∃ new, after.calls = new ++ before.calls ∧
    ∀ c ∈ new, StrictlyInside (resolve root) (resolve c.path)

section Guard

def hostCall : VfsCall → Bool
  | .mkdir _ => true
  | .createFile _ => true
  | .writeFile _ _ => true
  | .deleteFile _ => true
  | .rmdir _ => true
  | _ => false

def setsHostRoot : VfsCall → Bool
  | .setHostRoot _ => true
  | _ => false

variable (s : VfsState)

def joinsInside (dir name : Bytes) : Bool :=
  decide (NeverAscends name) && (pathComponents dir != [] || decide (Descends name))

def namesInside (path : Bytes) : Bool :=
  match splitPath path with
  | .error _ => true
  | .ok (dir, name) =>
    match findDirectory s dir with
    | .ok (some _) => joinsInside dir name
    | _ => true

def removesRoot (path : Bytes) : Bool :=
  pathComponents path == [] && s.hostRootDirectory != [] && Forest.childrenOf s.nodes s.root == []

def staysInside : VfsCall → Bool
  | .mkdir path => namesInside s path
  | .createFile path => namesInside s path
  | .rmdir path => !removesRoot s path
  | _ => true

end Guard

structure NamesInside (nodes : Forest Attr) (root : Nat) : Prop where
  never_ascends : ∀ {n a}, n ≠ root → Forest.valAt nodes n = some a → NeverAscends a.name
  descends : ∀ {n a}, n ∈ Forest.childrenOf nodes root → Forest.valAt nodes n = some a →
    Descends a.name

variable {s s' : VfsState} {n parent : Nat} {a v : Attr} {names : List Bytes} {path : Bytes}
  {blocks : Heap Bytes}

namespace Confined

variable {root : Bytes} {h h' h'' : Host}

theorem refl (root : Bytes) (h : Host) : Confined root h h := ⟨[], rfl, by simp⟩

theorem trans (hl : Confined root h h') (hr : Confined root h' h'') : Confined root h h'' := by
  obtain ⟨new, hnew, hin⟩ := hl
  obtain ⟨new', hnew', hin'⟩ := hr
  refine ⟨new' ++ new, by rw [hnew', hnew, List.append_assoc], ?_⟩
  intro c hc
  rcases List.mem_append.mp hc with hc | hc
  · exact hin' c hc
  · exact hin c hc

theorem one {c : HostCall} (hcalls : h'.calls = c :: h.calls)
    (hin : StrictlyInside (resolve root) (resolve c.path)) : Confined root h h' :=
  ⟨[c], hcalls, by simpa using hin⟩

end Confined

section HostCalls

variable {root : Bytes}

theorem calls_openWrite (h : Host) (path content : Bytes) :
    (h.openWrite path content).2.calls = .openWrite path :: h.calls := by
  unfold Host.openWrite
  dsimp only
  split <;> rfl

theorem calls_createDirectory (h : Host) (path : Bytes) :
    (h.createDirectory path).2.calls = .createDirectory path :: h.calls := by
  unfold Host.createDirectory
  dsimp only
  split <;> rfl

theorem calls_deleteFile (h : Host) (path : Bytes) :
    (h.deleteFile path).calls = .deleteFile path :: h.calls := by
  unfold Host.deleteFile
  dsimp only
  split <;> rfl

theorem calls_removeDirectory (h : Host) (path : Bytes) :
    (h.removeDirectory path).calls = .removeDirectory path :: h.calls := by
  unfold Host.removeDirectory
  dsimp only
  split <;> rfl

variable (hin : StrictlyInside (resolve root) (resolve path))

include hin

theorem confined_openWrite (h : Host) (content : Bytes) :
    Confined root h (h.openWrite path content).2 := .one (calls_openWrite h path content) hin

theorem confined_ensure (h : Host) : Confined root h (vfsEnsureHostDirectory h path).2 := by
  unfold vfsEnsureHostDirectory
  split
  · have hcalls := calls_createDirectory h path
    split
    · next h' hmade => exact .one (c := .createDirectory path) (by rw [← hcalls, hmade]) hin
    · next h' hmade => exact .one (c := .createDirectory path) (by rw [← hcalls, hmade]) hin
  · exact .refl root h
  · exact .refl root h

theorem confined_deleteFile (h : Host) : Confined root h (h.deleteFile path) :=
  .one (calls_deleteFile h path) hin

theorem confined_removeDirectory (h : Host) : Confined root h (h.removeDirectory path) :=
  .one (calls_removeDirectory h path) hin

end HostCalls

section Names

variable {nodes : Forest Attr} {root : Nat} {first : Bytes} {rest : List Bytes}

namespace NamesInside

theorem link (h : NamesInside nodes root) (hp : nodes.live parent = true)
    (hv : NeverAscends v.name) (hroot : parent = root → Descends v.name)
    (hwf : Forest.WellFormed nodes root) : NamesInside (Forest.link nodes parent v) root where
  never_ascends := by
    intro m b hm hb
    rw [Forest.valAt_link hp] at hb
    split at hb
    · exact Option.some.inj hb ▸ hv
    · exact h.never_ascends hm hb
  descends := by
    intro m b hm hb
    rw [Forest.valAt_link hp] at hb
    rw [Forest.childrenOf_link hp] at hm
    split at hm
    · next hparent =>
      subst hparent
      rcases List.mem_cons.mp hm with rfl | hm
      · rw [if_pos rfl] at hb
        exact Option.some.inj hb ▸ hroot rfl
      · rw [if_neg (Nat.ne_of_lt (Forest.live_lt_size (hwf.child_parent hm).1))] at hb
        exact h.descends hm hb
    · rw [if_neg (Nat.ne_of_lt (Forest.live_lt_size (hwf.child_parent hm).1))] at hb
      exact h.descends hm hb

theorem unlink (h : NamesInside nodes root) (hwf : Forest.WellFormed nodes root) (n : Nat) :
    NamesInside (Forest.unlink nodes n) root where
  never_ascends := by
    intro m b hm hb
    rw [Forest.valAt_unlink] at hb
    split at hb
    · cases hb
    · exact h.never_ascends hm hb
  descends := by
    intro m b hm hb
    rw [Forest.valAt_unlink] at hb
    split at hb
    · cases hb
    · by_cases hroot : root = n
      · rw [hroot, Forest.childrenOf_unlink_self] at hm
        cases hm
      · rw [hwf.childrenOf_unlink hroot] at hm
        exact h.descends (List.mem_of_mem_erase hm) hb

theorem update (h : NamesInside nodes root) {u : Attr → Attr} (hu : ∀ b, (u b).name = b.name)
    (n : Nat) : NamesInside (Forest.update nodes n u) root := by
  have hold : ∀ {m b}, Forest.valAt (Forest.update nodes n u) m = some b →
      ∃ c, Forest.valAt nodes m = some c ∧ b.name = c.name := by
    intro m b hb
    rw [Forest.valAt_update] at hb
    split at hb
    · next hm =>
      obtain ⟨c, hc, rfl⟩ := Option.map_eq_some_iff.mp hb
      exact ⟨c, hm ▸ hc, hu c⟩
    · exact ⟨b, hb, rfl⟩
  constructor
  · intro m b hm hb
    obtain ⟨c, hc, hname⟩ := hold hb
    exact hname ▸ h.never_ascends hm hc
  · intro m b hm hb
    obtain ⟨c, hc, hname⟩ := hold hb
    rw [Forest.childrenOf_update] at hm
    exact hname ▸ h.descends hm hc

theorem of_walk (h : NamesInside nodes root) (hwf : Forest.WellFormed nodes root)
    (hw : Forest.walk Attr.name nodes root (first :: rest) = some n) :
    Descends first ∧ ∀ name ∈ rest, NeverAscends name := by
  obtain ⟨c, hc, hrest⟩ := Option.bind_eq_some_iff.mp hw
  obtain ⟨hmem, hkey⟩ := Forest.childNamed_eq_some hc
  have hvalue : ∀ {m name}, Forest.keyAt Attr.name nodes m = some name →
      ∃ b, Forest.valAt nodes m = some b ∧ b.name = name := by
    intro m name hm
    obtain ⟨cell, hcell, hname⟩ := Option.map_eq_some_iff.mp hm
    exact ⟨cell.val, by simp [Forest.valAt, hcell], hname⟩
  refine ⟨?_, fun name hname => ?_⟩
  · obtain ⟨b, hb, rfl⟩ := hvalue hkey
    exact h.descends hmem hb
  · have hlt := hwf.older (hwf.child_parent hmem).2
    obtain ⟨m, hm, hkey⟩ := hwf.key_of_walk hrest hname
    obtain ⟨b, hb, rfl⟩ := hvalue hkey
    exact h.never_ascends (by omega) hb

end NamesInside

end Names

section Nodes

theorem confined_synced
    (hin : StrictlyInside (resolve s.hostRootDirectory) (resolve (vfsGetHostPath s n))) :
    Confined s.hostRootDirectory s.host (syncedHost s n) := by
  unfold syncedHost vfsSyncToHost
  split
  · exact .refl _ _
  · split
    · exact .refl _ _
    · dsimp only
      split
      · exact confined_ensure hin s.host
      · exact confined_openWrite hin s.host _

variable (hs : Sound s.nodes s.blocks s.root) (hd : NamesInside s.nodes s.root)
  (hlen : s.hostRootDirectory.length ≤ 511) (hset : s.hostRootDirectory ≠ [])

include hs hd hset in
theorem built_inside (hw : Forest.walk Attr.name s.nodes s.root names = some parent)
    (hnames : names ≠ [])
    (hpath : vfsGetHostPath s n = s.hostRootDirectory ++ backslash :: joined names) :
    StrictlyInside (resolve s.hostRootDirectory) (resolve (vfsGetHostPath s n)) := by
  obtain ⟨first, rest, rfl⟩ := List.exists_cons_of_ne_nil hnames
  obtain ⟨hfirst, hrest⟩ := hd.of_walk hs.tree hw
  rw [hpath]
  exact strictlyInside_under hset hfirst hrest

include hs hd hlen hset in
theorem found_inside (hfind : vfsFindNode s path = .ok (some n)) (hn : pathComponents path ≠ []) :
    StrictlyInside (resolve s.hostRootDirectory) (resolve (vfsGetHostPath s n)) := by
  have hext := extent_pathComponents path
  have hw := (vfsFindNode_ok hfind).2
  exact built_inside hs hd hset hw hn (vfsGetHostPath_walk hs.tree
    (fun _ hname => pathComponents_ne_nil hname) hn (by omega) hlen hw)

include hs in
theorem components_of_file (hfind : vfsFindNode s path = .ok (some n))
    (ha : Forest.valAt s.nodes n = some a) (hfile : a.isDirectory = false) :
    pathComponents path ≠ [] := by
  intro hnil
  have hwalk := (vfsFindNode_ok hfind).2
  rw [hnil] at hwalk
  obtain rfl := Option.some.inj hwalk
  exact Bool.false_ne_true (hfile.symm.trans (hs.root_directory ha))

variable {dir : Bytes} (hfind : findDirectory s dir = .ok (some parent))
  (hjoin : joinsInside dir v.name = true)

include hs hfind hjoin in
theorem descends_under_root (hp : parent = s.root) : Descends v.name := by
  obtain ⟨_, hwalk, _⟩ := findDirectory_ok_some hfind
  obtain ⟨_, hdir | hdown⟩ : NeverAscends v.name ∧ (pathComponents dir ≠ [] ∨ Descends v.name) := by
    simpa [joinsInside] using hjoin
  · obtain ⟨first, rest, hcons⟩ := List.exists_cons_of_ne_nil hdir
    rw [hcons] at hwalk
    exact absurd hp (Nat.ne_of_gt (hs.tree.walk_lt hwalk))
  · exact hdown

include hs hd hfind hjoin in
theorem namesInside_addNode : NamesInside (Forest.link s.nodes parent v) s.root := by
  have hup : NeverAscends v.name ∧ (pathComponents dir ≠ [] ∨ Descends v.name) := by
    simpa [joinsInside] using hjoin
  exact hd.link (isDirectory_of_find hfind).live hup.1 (descends_under_root hs hfind hjoin) hs.tree

include hs hd hlen hset hfind hjoin in
theorem added_inside (hdata : v.data = none) (hfit : v.name.length < 256) :
    StrictlyInside (resolve s.hostRootDirectory)
      (resolve (vfsGetHostPath (vfsAddChild s parent v) s.nodes.size)) := by
  have hdir := isDirectory_of_find hfind
  have hext := extent_pathComponents dir
  obtain ⟨_, hwalk, _⟩ := findDirectory_ok_some hfind
  have hs' : Sound (vfsAddChild s parent v).nodes (vfsAddChild s parent v).blocks
      (vfsAddChild s parent v).root := hs.link hdir hdata
  have hd' : NamesInside (vfsAddChild s parent v).nodes (vfsAddChild s parent v).root :=
    namesInside_addNode hs hd hfind hjoin
  have hparent : Forest.walk Attr.name (vfsAddChild s parent v).nodes s.root (pathComponents dir) =
      some parent := hs.tree.walk_link hdir.live hwalk
  by_cases hname : v.name = []
  · have hne : pathComponents dir ≠ [] := by
      have hnot : ¬ Descends v.name := by
        rw [hname]
        decide
      have hcases : NeverAscends v.name ∧ (pathComponents dir ≠ [] ∨ Descends v.name) := by
        simpa [joinsInside] using hjoin
      exact hcases.2.resolve_right hnot
    refine built_inside hs' hd' hset hparent hne (vfsGetHostPath_unnamed hs'.tree
      (fun _ hn => pathComponents_ne_nil hn) hne (by omega) hlen hparent ?_ ?_)
    · simp [vfsAddChild, Forest.parentOf_link hdir.live]
    · simp [vfsAddChild, Forest.keyAt_link hdir.live, hname]
  · have hnew : Forest.walk Attr.name (vfsAddChild s parent v).nodes s.root
        (pathComponents dir ++ [v.name]) = some s.nodes.size := by
      rw [Forest.walk_concat, hparent, Option.bind_some, vfsAddChild,
        Forest.childNamed_link hs.tree hdir.live, if_pos ⟨rfl, rfl⟩]
    have hnames : ∀ name ∈ pathComponents dir ++ [v.name], name ≠ [] := by
      intro name hin
      rcases List.mem_append.mp hin with hin | hin
      · exact pathComponents_ne_nil hin
      · exact List.mem_singleton.mp hin ▸ hname
    have hlong : extent (pathComponents dir ++ [v.name]) ≤ 512 := by
      simp only [extent_append, extent_cons, extent_nil]
      omega
    exact built_inside hs' hd' hset hnew (by simp) (vfsGetHostPath_walk hs'.tree hnames (by simp)
      hlong hlen hnew)

include hs hd hlen hfind hjoin in
theorem confined_addNode (hdata : v.data = none) (hfit : v.name.length < 256) :
    Confined s.hostRootDirectory s.host (addNode s parent v).host := by
  by_cases hr : s.hostRootDirectory = []
  · rw [addNode_eq]
    simpa [addedHost, hr] using Confined.refl [] s.host
  · have hsync := confined_synced (added_inside hs hd hlen hr hfind hjoin hdata hfit)
    rw [addNode_eq]
    simp only [addedHost, if_neg hr]
    exact hsync

end Nodes

section Steps

structure Inside (s : VfsState) : Prop where
  consistent : Consistent s
  names : s.nodes.live s.root = true → NamesInside s.nodes s.root
  length : s.hostRootDirectory.length ≤ 511

structure Advances (s s' : VfsState) : Prop where
  inside : Inside s'
  root : s'.hostRootDirectory = s.hostRootDirectory
  confined : Confined s.hostRootDirectory s.host s'.host

theorem Inside.stay (h : Inside s) : Advances s s := ⟨h, rfl, .refl _ _⟩

theorem Inside.addNode (h : Inside s) {dir name : Bytes} (hsplit : splitPath path = .ok (dir, name))
    (hfind : findDirectory s dir = .ok (some parent)) (hdata : v.data = none)
    (hname : v.name = clip 256 name) (hguard : namesInside s path = true) :
    Advances s (addNode s parent v) := by
  have hlive := (findDirectory_ok_some hfind).1
  have hs := h.consistent hlive
  have hd := h.names hlive
  have hfit := name_of_split hsplit
  rw [clip_of_length_lt hfit] at hname
  have hjoin : joinsInside dir v.name = true := by
    simpa [namesInside, hsplit, hfind, hname] using hguard
  have hconfined := confined_addNode hs hd h.length hfind hjoin hdata (hname ▸ hfit)
  have hnames := namesInside_addNode hs hd hfind hjoin
  rw [addNode_eq] at hconfined ⊢
  exact ⟨⟨fun _ => hs.link (isDirectory_of_find hfind) hdata, fun _ => hnames, h.length⟩, rfl,
    hconfined⟩

theorem Inside.mkdir (h : Inside s) {r : Int} (hcall : vfsMkdir s path = .ok (r, s'))
    (hguard : namesInside s path = true) : Advances s s' := by
  rcases vfsMkdir_cases hcall with rfl | ⟨dir, name, parent, hsplit, hfind, _, _, rfl⟩
  · exact h.stay
  · exact h.addNode hsplit hfind rfl rfl hguard

theorem Inside.createFile (h : Inside s) {r : Int} (hcall : vfsCreateFile s path = .ok (r, s'))
    (hguard : namesInside s path = true) : Advances s s' := by
  rcases vfsCreateFile_cases hcall with ⟨_, rfl⟩ | ⟨dir, name, parent, hsplit, hfind, _, rfl⟩
  · exact h.stay
  · exact h.addNode hsplit hfind rfl rfl hguard

theorem namesInside_written (hd : NamesInside s.nodes s.root) (content : Option Bytes) :
    NamesInside (written s n blocks content).nodes s.root := by
  rw [nodes_written, nodes_storeData]
  exact (hd.update (name_withData _ _) n).update (name_touched _) n

theorem Inside.writeFile (h : Inside s) {r : Int} {data : Bytes}
    (hcall : vfsWriteFile s path (.bytes data) data.length = .ok (r, s')) : Advances s s' := by
  rcases vfsWriteFile_cases hcall with
    ⟨_, rfl⟩ | ⟨n, a, blocks, content, hfind, ha, hfile, _, hfree, _, _, rfl⟩
  · exact h.stay
  · have hlive := (vfsFindNode_ok hfind).1
    have hs := h.consistent hlive
    have hd := h.names hlive
    have hhost := host_written blocks ha hfile content
    have hroot : (written s n blocks content).root = s.root := by
      rw [written_eq]
      cases content <;> rfl
    have hhr : (written s n blocks content).hostRootDirectory = s.hostRootDirectory := by
      rw [written_eq]
      cases content <;> rfl
    refine ⟨⟨fun _ => sound_written hs ha hfree content, fun _ => ?_, hhr ▸ h.length⟩, hhr, ?_⟩
    · rw [hroot]
      exact namesInside_written hd content
    · rw [hhost]
      by_cases hr : s.hostRootDirectory = []
      · simpa [hr] using Confined.refl [] s.host
      · rw [if_neg hr]
        exact confined_openWrite (found_inside hs hd h.length hr hfind
          (components_of_file hs hfind ha hfile)) s.host _

theorem Inside.deleteFile (h : Inside s) {r : Int} (hcall : vfsDeleteFile s path = .ok (r, s')) :
    Advances s s' := by
  have hc := consistent_deleteFile h.consistent hcall
  rcases vfsDeleteFile_cases hcall with ⟨_, rfl⟩ | ⟨n, a, blocks, hfind, ha, hfile, hfree, _, rfl⟩
  · exact h.stay
  · have hlive := (vfsFindNode_ok hfind).1
    have hs := h.consistent hlive
    have hd := h.names hlive
    refine ⟨⟨hc, fun _ => hd.unlink hs.tree n, h.length⟩, rfl, ?_⟩
    by_cases hr : s.hostRootDirectory = []
    · simpa [withoutFile, hr] using Confined.refl [] s.host
    · simp only [withoutFile, if_neg hr]
      exact confined_deleteFile (found_inside hs hd h.length hr hfind
        (components_of_file hs hfind ha hfile)) s.host

theorem Inside.rmdir (h : Inside s) {r : Int} (hcall : vfsRmdir s path = .ok (r, s'))
    (hguard : removesRoot s path = false) : Advances s s' := by
  have hc := consistent_rmdir h.consistent hcall
  rcases vfsRmdir_cases hcall with ⟨_, rfl⟩ | ⟨n, a, hfind, ha, _, hleaf, _, rfl⟩
  · exact h.stay
  · obtain ⟨hlive, hwalk⟩ := vfsFindNode_ok hfind
    have hs := h.consistent hlive
    have hd := h.names hlive
    refine ⟨⟨hc, fun _ => hd.unlink hs.tree n, h.length⟩, rfl, ?_⟩
    by_cases hr : s.hostRootDirectory = []
    · simpa [withoutDirectory, hr] using Confined.refl [] s.host
    · simp only [withoutDirectory, if_neg hr]
      have hnames : pathComponents path ≠ [] := by
        intro hnil
        rw [hnil] at hwalk
        obtain rfl := Option.some.inj hwalk
        simp [removesRoot, hnil, hr, hleaf] at hguard
      exact confined_removeDirectory (found_inside hs hd h.length hr hfind hnames) s.host

theorem Inside.step (h : Inside s) {c : VfsCall} (hcall : hostCall c = true)
    (hguard : staysInside s c = true) (hstep : vfsStep s c = some s') : Advances s s' := by
  obtain ⟨r, hr⟩ := vfsStep_eq hstep
  cases c with
  | mkdir path => exact h.mkdir hr hguard
  | createFile path => exact h.createFile hr hguard
  | writeFile path data => exact h.writeFile hr
  | deleteFile path => exact h.deleteFile hr
  | rmdir path => exact h.rmdir hr (by simpa [staysInside] using hguard)
  | _ => cases hcall

theorem Inside.setHostRoot (h : Inside s) (hostRoot : Bytes) :
    Inside (vfsSetHostRoot s hostRoot) :=
  ⟨h.consistent, h.names, length_clip_le 512 hostRoot⟩

theorem namesInside_initial (s : VfsState) (hin : path ∈ initialDirectories) :
    namesInside s path = true := by
  have hsplit : ∃ dir name, splitPath path = .ok (dir, name) ∧ joinsInside dir name = true := by
    simp only [initialDirectories, List.mem_cons, List.not_mem_nil, or_false] at hin
    rcases hin with rfl | rfl | rfl | rfl | rfl | rfl
    all_goals exact ⟨_, _, rfl, by decide +kernel⟩
  obtain ⟨dir, name, hsplit, hjoin⟩ := hsplit
  unfold namesInside
  rw [hsplit]
  dsimp only
  split
  · exact hjoin
  · rfl

theorem inside_blank (junk : Attr) (host : Host) (clock : Nat) :
    Inside (blankVfs junk host clock) := by
  refine ⟨fun _ => sound_blank junk host clock, fun _ => ⟨?_, ?_⟩, by simp [blankVfs]⟩
  · intro n a hn ha
    rw [show Forest.valAt (blankVfs junk host clock).nodes n = none from
      (Forest.valAt_single _ n).trans (if_neg hn)] at ha
    cases ha
  · intro n a hn _
    rw [show Forest.childrenOf (blankVfs junk host clock).nodes (blankVfs junk host clock).root = []
      from Forest.childrenOf_single _ 0] at hn
    cases hn

end Steps

-- The host root may be set anew in `before`; `calls` are those after it was last set.
theorem confined_while_inside {before calls : List VfsCall} {s₀ : VfsState} {hostRoot : Bytes}
    (hreach : ReachableBy (fun s c => (hostCall c || setsHostRoot c) = true ∧
      staysInside s c = true) before s₀)
    (hrun : Run vfsStep (fun s c => hostCall c = true ∧ staysInside s c = true)
      (vfsSetHostRoot s₀ hostRoot) calls s) :
    Confined (vfsSetHostRoot s₀ hostRoot).hostRootDirectory s₀.host s.host := by
  have hstart : Inside s₀ := by
    refine hreach.invariant inside_blank ?_ ?_
    · exact fun s s' path r hin hs hcall => (hs.mkdir hcall (namesInside_initial s hin)).inside
    · intro s c s' hs hok hstep
      by_cases hcall : hostCall c = true
      · exact (hs.step hcall hok.2 hstep).inside
      · cases c with
        | setHostRoot hostRoot =>
          obtain rfl := Option.some.inj hstep
          exact hs.setHostRoot hostRoot
        | _ => simp [hostCall, setsHostRoot] at hok hcall
  have hadv : Advances (vfsSetHostRoot s₀ hostRoot) s := by
    refine hrun.invariant (P := Advances (vfsSetHostRoot s₀ hostRoot))
      (hstart.setHostRoot hostRoot).stay ?_
    intro t c t' ht hok hstep
    have hnext := ht.inside.step hok.1 hok.2 hstep
    exact ⟨hnext.inside, hnext.root.trans ht.root, ht.confined.trans (ht.root ▸ hnext.confined)⟩
  exact hadv.confined

def confinedCall (s : VfsState) (c : VfsCall) : Bool := hostCall c && staysInside s c

def hostRootCalls : List VfsCall :=
  [.mkdir (str "/home/a"), .createFile (str "/home/a/f"), .writeFile (str "/home/a/f") (str "hi"),
    .createFile (str "/tmp/.\\g"), .deleteFile (str "/home/a/f"), .rmdir (str "/home/a")]

def beforeHostRoot : VfsState :=
  ran (fun s c => (hostCall c || setsHostRoot c) && staysInside s c) (openHost [])
    [.mkdir (str "/data"), .setHostRoot (str "old")]

def afterHostRoot (hostRoot : Bytes) (calls : List VfsCall) : VfsState :=
  (exec (guarded vfsStep confinedCall) (vfsSetHostRoot beforeHostRoot hostRoot) calls).getD
    (vfsSetHostRoot beforeHostRoot hostRoot)

theorem confined_while_inside_sample :
    Confined (str "C:\\zora") beforeHostRoot.host
      (afterHostRoot (str "C:\\zora") hostRootCalls).host := by
  have hreach := reachableBy_ran (fun s c => (hostCall c || setsHostRoot c) && staysInside s c)
    (openHost []) [.mkdir (str "/data"), .setHostRoot (str "old")] (by decide +kernel)
    (by decide +kernel)
  have hrun : Run vfsStep (fun s c => confinedCall s c = true)
      (vfsSetHostRoot beforeHostRoot (str "C:\\zora")) hostRootCalls
      (afterHostRoot (str "C:\\zora") hostRootCalls) := Run.of_exec_isSome (by decide +kernel)
  exact confined_while_inside (hreach.mono fun s c h => by simpa using h)
    (hrun.mono fun s c h => by simpa [confinedCall] using h)

theorem backslash_name_escapes :
    ¬ ∀ (before calls : List VfsCall) (s₀ s : VfsState) (hostRoot : Bytes),
      ReachableBy (fun _ c => (hostCall c || setsHostRoot c) = true) before s₀ →
      Run vfsStep (fun _ c => hostCall c = true) (vfsSetHostRoot s₀ hostRoot) calls s →
      Confined (vfsSetHostRoot s₀ hostRoot).hostRootDirectory s₀.host s.host := by
  intro hall
  have hreach := reachableBy_ran (fun _ c => hostCall c || setsHostRoot c) (openHost []) []
    (by decide +kernel) (by decide +kernel)
  have hrun : Run vfsStep (fun _ c => hostCall c = true)
      (vfsSetHostRoot (ran (fun _ c => hostCall c || setsHostRoot c) (openHost []) [])
        (str "C:\\zora")) [.createFile (str "/..\\evil")] _ :=
    Run.of_exec_isSome (by decide +kernel)
  obtain ⟨new, hnew, hin⟩ := hall _ _ _ _ _ hreach hrun
  have hcalls : new = [.openWrite (str "C:\\zora\\..\\evil")] := by
    rw [show (ran (fun _ c => hostCall c || setsHostRoot c) (openHost []) []).host.calls = [] by
      decide +kernel, List.append_nil] at hnew
    exact hnew.symm.trans (by decide +kernel)
  obtain ⟨_, inner, hne, _, hparts⟩ := hin _ (hcalls ▸ List.mem_singleton_self _)
  have hroot : (resolve (vfsSetHostRoot (ran (fun _ c => hostCall c || setsHostRoot c) (openHost [])
      []) (str "C:\\zora")).hostRootDirectory).parts.length = 2 := by decide +kernel
  have hpath : (resolve (str "C:\\zora\\..\\evil")).parts.length = 2 := by decide +kernel
  have hlength := congrArg List.length hparts
  rw [HostCall.path, hpath, List.length_append, hroot] at hlength
  exact hne (List.eq_nil_of_length_eq_zero (by omega))

end ZoraVM.Vfs
