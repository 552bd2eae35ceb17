import ZoraVM.Vfs.Mount

namespace ZoraVM.Vfs

open Foundation

variable {s s' : VfsState} {path : Bytes} {r : Int} {n parent : Nat}

section Lookup

theorem vfsFindNode_ok {found : Option Nat} (h : vfsFindNode s path = .ok found) :
    s.nodes.live s.root = true ∧
      Forest.walk Attr.name s.nodes s.root (pathComponents path) = found := by
  unfold vfsFindNode at h
  split at h
  · next hl => exact ⟨hl, Except.ok.inj h⟩
  · cases h

theorem vfsFindNode_of_live (hl : s.nodes.live s.root = true) :
    vfsFindNode s path =
      .ok (Forest.walk Attr.name s.nodes s.root (pathComponents path)) := if_pos hl

theorem nodeAt_ok {a : Attr} (h : nodeAt s n = .ok a) : Forest.valAt s.nodes n = some a := by
  unfold nodeAt at h
  split at h
  · next b hb => exact Except.ok.inj h ▸ hb
  · cases h

theorem nodeAt_of_valAt {a : Attr} (h : Forest.valAt s.nodes n = some a) : nodeAt s n = .ok a := by
  simp [nodeAt, h]

theorem findDirectory_ok_some (h : findDirectory s path = .ok (some n)) :
    s.nodes.live s.root = true ∧
      Forest.walk Attr.name s.nodes s.root (pathComponents path) = some n ∧
      ∃ a, Forest.valAt s.nodes n = some a ∧ a.isDirectory = true := by
  obtain ⟨found, hfind, hrest⟩ := Outcome.bind_eq_ok.mp h
  obtain ⟨hl, hwalk⟩ := vfsFindNode_ok hfind
  cases found with
  | none => cases Except.ok.inj hrest
  | some m =>
    obtain ⟨a, ha, hdir⟩ := Outcome.bind_eq_ok.mp hrest
    replace ha := nodeAt_ok ha
    by_cases hd : a.isDirectory = true
    · rw [if_pos hd] at hdir
      obtain rfl := Option.some.inj (Except.ok.inj hdir)
      exact ⟨hl, hwalk, a, ha, hd⟩
    · rw [if_neg hd] at hdir
      cases Except.ok.inj hdir

theorem found_cases {β : Type} {absent done : β} {body : Nat → Attr → Outcome β}
    (h : (vfsFindNode s path >>= fun found => match found with
      | none => .ok absent
      | some n => nodeAt s n >>= body n) = .ok done) :
    done = absent ∨ ∃ n a, vfsFindNode s path = .ok (some n) ∧ Forest.valAt s.nodes n = some a ∧
      body n a = .ok done := by
  obtain ⟨found, hfind, hrest⟩ := Outcome.bind_eq_ok.mp h
  cases found with
  | none => exact .inl (Except.ok.inj hrest).symm
  | some n =>
    obtain ⟨a, ha, hrest⟩ := Outcome.bind_eq_ok.mp hrest
    exact .inr ⟨n, a, hfind, nodeAt_ok ha, hrest⟩

theorem vfsCheckPermission_ok {user : Bytes} {required : BitVec 32} {b : Bool} {a : Attr}
    (hwalk : Forest.walk Attr.name s.nodes s.root (pathComponents path) = some n)
    (ha : Forest.valAt s.nodes n = some a) (h : vfsCheckPermission s path user required = .ok b) :
    b = permits s.identity a user required := by
  obtain ⟨found, hfind, hrest⟩ := Outcome.bind_eq_ok.mp h
  obtain ⟨_, hfound⟩ := vfsFindNode_ok hfind
  rw [hwalk] at hfound
  subst hfound
  simp only [nodeAt_of_valAt ha] at hrest
  exact (Except.ok.inj hrest).symm

end Lookup

section Sync

def syncedHost (s : VfsState) (n : Nat) : Host := (vfsSyncToHost s n).2.host

theorem vfsSyncToHost_eq (s : VfsState) (n : Nat) :
    (vfsSyncToHost s n).2 = { s with host := syncedHost s n } := by
  unfold syncedHost vfsSyncToHost
  split
  · rfl
  · split
    · rfl
    · dsimp only
      split <;> rfl

def addedHost (s : VfsState) (parent : Nat) (v : Attr) : Host :=
  if s.hostRootDirectory = [] then s.host else syncedHost (vfsAddChild s parent v) s.nodes.size

theorem addNode_eq (s : VfsState) (parent : Nat) (v : Attr) :
    addNode s parent v =
      { s with nodes := Forest.link s.nodes parent v, host := addedHost s parent v } := by
  unfold addNode addedHost
  by_cases hr : s.hostRootDirectory = []
  · simp [hr, vfsAddChild]
  · simp only [if_neg hr, vfsSyncToHost_eq, vfsAddChild]

end Sync

section Creation

theorem splitPath_ok {dir name : Bytes} (h : splitPath path = .ok (dir, name)) :
    name.length < 256 ∧ slash ∉ name ∧
      ((path = name ∧ dir = [slash]) ∨
        ∃ above, path = above ++ slash :: name ∧ above.length < 256 ∧
          dir = if above = [] then [slash] else above) := by
  unfold splitPath at h
  split at h
  · next above last hlast =>
    obtain ⟨hpath, hslash⟩ := splitLast_eq_some.mp hlast
    split at h
    · cases h
    · next hfit =>
      obtain ⟨rfl, rfl⟩ := Prod.mk.inj (Except.ok.inj h)
      exact ⟨by omega, hslash, .inr ⟨above, hpath, by omega, rfl⟩⟩
  · next hlast =>
    split at h
    · cases h
    · next hfit =>
      obtain ⟨rfl, rfl⟩ := Prod.mk.inj (Except.ok.inj h)
      exact ⟨by omega, splitLast_eq_none.mp hlast, .inl ⟨rfl, rfl⟩⟩

theorem name_of_split {dir name : Bytes} (h : splitPath path = .ok (dir, name)) :
    name.length < 256 := (splitPath_ok h).1

theorem vfsMkdir_cases (h : vfsMkdir s path = .ok (r, s')) :
    s' = s ∨ ∃ dir name parent, splitPath path = .ok (dir, name) ∧
      findDirectory s dir = .ok (some parent) ∧
      Forest.childNamed Attr.name s.nodes parent name = none ∧
      r = 0 ∧ s' = addNode s parent (vfsCreateDirectoryNode s name) := by
  obtain ⟨⟨dir, name⟩, hsplit, hrest⟩ := Outcome.bind_eq_ok.mp h
  obtain ⟨found, hfind, hrest⟩ := Outcome.bind_eq_ok.mp hrest
  cases found with
  | none => exact .inl (Prod.mk.inj (Except.ok.inj hrest)).2.symm
  | some parent =>
    dsimp only at hrest
    split at hrest
    · exact .inl (Prod.mk.inj (Except.ok.inj hrest)).2.symm
    · next hfree =>
      obtain ⟨rfl, rfl⟩ := Prod.mk.inj (Except.ok.inj hrest)
      exact .inr ⟨dir, name, parent, hsplit, hfind, by simpa using hfree, rfl, rfl⟩

theorem vfsCreateFile_cases (h : vfsCreateFile s path = .ok (r, s')) :
    (r = -1 ∧ s' = s) ∨ ∃ dir name parent, splitPath path = .ok (dir, name) ∧
      findDirectory s dir = .ok (some parent) ∧
      r = 0 ∧ s' = addNode s parent (vfsCreateFileNode s name) := by
  obtain ⟨⟨dir, name⟩, hsplit, hrest⟩ := Outcome.bind_eq_ok.mp h
  obtain ⟨found, hfind, hrest⟩ := Outcome.bind_eq_ok.mp hrest
  cases found with
  | none =>
    obtain ⟨rfl, rfl⟩ := Prod.mk.inj (Except.ok.inj hrest)
    exact .inl ⟨rfl, rfl⟩
  | some parent =>
    obtain ⟨rfl, rfl⟩ := Prod.mk.inj (Except.ok.inj hrest)
    exact .inr ⟨dir, name, parent, hsplit, hfind, rfl, rfl⟩

theorem vfsCreateSymlink_cases {target : Bytes} (h : vfsCreateSymlink s path target = .ok (r, s')) :
    s' = s ∨ ∃ parent, findDirectory s (splitLinkPath path).1 = .ok (some parent) ∧
      s' = vfsAddChild s parent (vfsSymlinkNode s (splitLinkPath path).2 target) := by
  obtain ⟨found, hfind, hrest⟩ := Outcome.bind_eq_ok.mp h
  cases found with
  | none => exact .inl (Prod.mk.inj (Except.ok.inj hrest)).2.symm
  | some parent => exact .inr ⟨parent, hfind, (Prod.mk.inj (Except.ok.inj hrest)).2.symm⟩

end Creation

section Removal

def withoutDirectory (s : VfsState) (n : Nat) : VfsState :=
  { s with
    host := if s.hostRootDirectory = [] then s.host else s.host.removeDirectory (vfsGetHostPath s n)
    nodes := Forest.unlink s.nodes n }

theorem vfsRmdir_cases (h : vfsRmdir s path = .ok (r, s')) :
    (r = -1 ∧ s' = s) ∨ ∃ n a, vfsFindNode s path = .ok (some n) ∧ Forest.valAt s.nodes n = some a ∧
      a.isDirectory = true ∧ Forest.childrenOf s.nodes n = [] ∧ r = 0 ∧
      s' = withoutDirectory s n := by
  rcases found_cases h with hnone | ⟨n, a, hfind, ha, hrest⟩
  · exact .inl (Prod.mk.inj hnone)
  · split at hrest
    · obtain ⟨rfl, rfl⟩ := Prod.mk.inj (Except.ok.inj hrest)
      exact .inl ⟨rfl, rfl⟩
    · next hok =>
      obtain ⟨hdir, hleaf⟩ : a.isDirectory = true ∧ Forest.childrenOf s.nodes n = [] := by
        simpa using hok
      obtain ⟨rfl, rfl⟩ := Prod.mk.inj (Except.ok.inj hrest)
      exact .inr ⟨n, a, hfind, ha, hdir, hleaf, rfl, rfl⟩

def withoutFile (s : VfsState) (n : Nat) (blocks : Heap Bytes) : VfsState :=
  { s with
    host := if s.hostRootDirectory = [] then s.host else s.host.deleteFile (vfsGetHostPath s n)
    nodes := Forest.unlink s.nodes n
    blocks := blocks }

theorem vfsDeleteFile_cases (h : vfsDeleteFile s path = .ok (r, s')) :
    (r = -1 ∧ s' = s) ∨ ∃ n a blocks, vfsFindNode s path = .ok (some n) ∧
      Forest.valAt s.nodes n = some a ∧ a.isDirectory = false ∧
      freeData s.blocks a.data = .ok blocks ∧ r = 0 ∧ s' = withoutFile s n blocks := by
  rcases found_cases h with hnone | ⟨n, a, hfind, ha, hrest⟩
  · exact .inl (Prod.mk.inj hnone)
  · split at hrest
    · obtain ⟨rfl, rfl⟩ := Prod.mk.inj (Except.ok.inj hrest)
      exact .inl ⟨rfl, rfl⟩
    · next hfile =>
      obtain ⟨blocks, hblocks, hrest⟩ := Outcome.bind_eq_ok.mp hrest
      obtain ⟨rfl, rfl⟩ := Prod.mk.inj (Except.ok.inj hrest)
      exact .inr ⟨n, a, blocks, hfind, ha, by simpa using hfile, hblocks, rfl, rfl⟩

end Removal

section Content

def written (s : VfsState) (n : Nat) (blocks : Heap Bytes) (content : Option Bytes) : VfsState :=
  let s' := updateNode (storeData s n blocks content) n (touched s.clock)
  if s.hostRootDirectory = [] then s' else (vfsSyncToHost s' n).2

theorem permitted_cases {β : Type} {absent done : β} {body : Outcome β} {required : BitVec 32}
    {a : Attr} (hfind : vfsFindNode s path = .ok (some n)) (ha : Forest.valAt s.nodes n = some a)
    (h : (if a.isDirectory then .ok absent
      else vfsCheckPermission s path s.identity.vfsCurrentUser required >>= fun allowed =>
        if !allowed then .ok absent else body) = .ok done) :
    done = absent ∨ a.isDirectory = false ∧
      permits s.identity a s.identity.vfsCurrentUser required = true ∧ body = .ok done := by
  split at h
  · exact .inl (Except.ok.inj h).symm
  · next hfile =>
    obtain ⟨allowed, hallowed, h⟩ := Outcome.bind_eq_ok.mp h
    have hperm := vfsCheckPermission_ok (vfsFindNode_ok hfind).2 ha hallowed
    split at h
    · exact .inl (Except.ok.inj h).symm
    · next hok => exact .inr ⟨by simpa using hfile, by rw [← hperm]; simpa using hok, h⟩

theorem vfsWriteFile_cases {data : Buffer} {size : Nat}
    (h : vfsWriteFile s path data size = .ok (r, s')) :
    (r = -1 ∧ s' = s) ∨ ∃ n a blocks content, vfsFindNode s path = .ok (some n) ∧
      Forest.valAt s.nodes n = some a ∧ a.isDirectory = false ∧
      permits s.identity a s.identity.vfsCurrentUser (permWrite >>> 6) = true ∧
      freeData s.blocks a.data = .ok blocks ∧
      copyData blocks size data = .ok content ∧ r = 0 ∧ s' = written s n blocks content := by
  rcases found_cases h with hnone | ⟨n, a, hfind, ha, hrest⟩
  · exact .inl (Prod.mk.inj hnone)
  · rcases permitted_cases hfind ha hrest with hnone | ⟨hfile, hwrite, hrest⟩
    · exact .inl (Prod.mk.inj hnone)
    · obtain ⟨blocks, hblocks, hrest⟩ := Outcome.bind_eq_ok.mp hrest
      obtain ⟨content, hcontent, hrest⟩ := Outcome.bind_eq_ok.mp hrest
      obtain ⟨rfl, rfl⟩ := Prod.mk.inj (Except.ok.inj hrest)
      exact .inr ⟨n, a, blocks, content, hfind, ha, hfile, hwrite, hblocks, hcontent, rfl, rfl⟩

def loadable (s : VfsState) (a : Attr) : Option Bytes :=
  if a.isDirectory then none
  else (a.hostPath.bind s.host.openRead).filter fun content => content.length ≤ maxFileSize

theorem vfsLoadFileContent_eq {a : Attr} (ha : Forest.valAt s.nodes n = some a)
    (hdata : a.data = none) :
    vfsLoadFileContent s n =
      match loadable s a with
      | none => (-1, s)
      | some content => (0, loaded s n content) := by
  unfold vfsLoadFileContent loadable
  rw [ha]
  dsimp only
  cases hd : a.isDirectory with
  | true => simp
  | false =>
    cases hq : a.hostPath with
    | none => simp
    | some q =>
      cases ho : s.host.openRead q with
      | none => simp [hdata, ho]
      | some content =>
        by_cases hlen : content.length ≤ maxFileSize
        · simp [hdata, ho, Option.filter, hlen, Nat.not_lt.mpr hlen]
        · simp [hdata, ho, Option.filter, hlen, Nat.lt_of_not_le hlen]

theorem valAt_loaded {a : Attr} (ha : Forest.valAt s.nodes n = some a) (content : Bytes) :
    Forest.valAt (loaded s n content).nodes n =
      some (withData (some s.blocks.size) content.length a) := by
  simp [loaded, updateNode, Forest.valAt_update_self, ha]

theorem vfsReadFile_cases {found : Option (Option Nat × Nat)}
    (h : vfsReadFile s path = .ok (found, s')) :
    (found = none ∧ s' = s) ∨ ∃ n a, vfsFindNode s path = .ok (some n) ∧
      Forest.valAt s.nodes n = some a ∧ a.isDirectory = false ∧
      permits s.identity a s.identity.vfsCurrentUser (permRead >>> 6) = true ∧
      ((∃ p, a.data = some p ∧ found = some (some p, a.size) ∧ s' = s) ∨
        (a.data = none ∧ ∃ content, loadable s a = some content ∧
          found = some (some s.blocks.size, content.length) ∧ s' = loaded s n content)) := by
  rcases found_cases h with hnone | ⟨n, a, hfind, ha, hrest⟩
  · exact .inl (Prod.mk.inj hnone)
  · rcases permitted_cases hfind ha hrest with hnone | ⟨hfile, hread, hrest⟩
    · exact .inl (Prod.mk.inj hnone)
    · cases hdata : a.data with
      | some p =>
        simp only [hdata, Option.isSome_some, if_true, ne_eq, not_true, if_false,
          nodeAt_of_valAt ha] at hrest
        obtain ⟨rfl, rfl⟩ := Prod.mk.inj (Except.ok.inj hrest)
        exact .inr ⟨n, a, hfind, ha, hfile, hread, .inl ⟨p, hdata, by rw [hdata], rfl⟩⟩
      | none =>
        simp only [hdata, Option.isSome_none, Bool.false_eq_true, if_false,
          vfsLoadFileContent_eq ha hdata] at hrest
        cases hload : loadable s a with
        | none =>
          simp only [hload] at hrest
          obtain ⟨rfl, rfl⟩ := Prod.mk.inj (Except.ok.inj hrest)
          exact .inl ⟨rfl, rfl⟩
        | some content =>
          simp only [hload, ne_eq, not_true, if_false, nodeAt_of_valAt (valAt_loaded ha content)]
            at hrest
          obtain ⟨rfl, rfl⟩ := Prod.mk.inj (Except.ok.inj hrest)
          exact .inr ⟨n, a, hfind, ha, hfile, hread, .inr ⟨hdata, content, hload, rfl, rfl⟩⟩

section Forward

variable {a : Attr} {blocks : Heap Bytes} (hfind : vfsFindNode s path = .ok (some n))
  (ha : Forest.valAt s.nodes n = some a)

include hfind ha

theorem vfsCheckPermission_eq (user : Bytes) (required : BitVec 32) :
    vfsCheckPermission s path user required = .ok (permits s.identity a user required) := by
  simp [vfsCheckPermission, hfind, nodeAt_of_valAt ha, bind, Except.bind]

theorem vfsWriteFile_eq {data : Buffer} {size : Nat} {content : Option Bytes}
    (hfile : a.isDirectory = false)
    (hperm : permits s.identity a s.identity.vfsCurrentUser (permWrite >>> 6) = true)
    (hfree : freeData s.blocks a.data = .ok blocks)
    (hcontent : copyData blocks size data = .ok content) :
    vfsWriteFile s path data size = .ok (0, written s n blocks content) := by
  have hcheck := vfsCheckPermission_eq hfind ha s.identity.vfsCurrentUser (permWrite >>> 6)
  simp [vfsWriteFile, hfind, nodeAt_of_valAt ha, hfile, hcheck, hperm, hfree, hcontent, bind,
    Except.bind, written]

theorem vfsReadFile_eq (hfile : a.isDirectory = false)
    (hperm : permits s.identity a s.identity.vfsCurrentUser (permRead >>> 6) = true) :
    vfsReadFile s path =
      match a.data with
      | some p => .ok (some (some p, a.size), s)
      | none =>
        match loadable s a with
        | none => .ok (none, s)
        | some content => .ok (some (some s.blocks.size, content.length), loaded s n content) := by
  have hcheck := vfsCheckPermission_eq hfind ha s.identity.vfsCurrentUser (permRead >>> 6)
  cases hdata : a.data with
  | some p =>
    simp [vfsReadFile, hfind, nodeAt_of_valAt ha, hfile, hcheck, hperm, hdata, bind, Except.bind]
  | none =>
    have hload := vfsLoadFileContent_eq ha hdata
    cases hc : loadable s a with
    | none =>
      simp [vfsReadFile, hfind, nodeAt_of_valAt ha, hfile, hcheck, hperm, hdata, hload, hc, bind,
        Except.bind]
    | some content =>
      simp [vfsReadFile, hfind, nodeAt_of_valAt ha, hfile, hcheck, hperm, hdata, hload, hc,
        nodeAt_of_valAt (valAt_loaded ha content), withData, bind, Except.bind]

end Forward

end Content

section Mount

theorem mountPoint_cases {found : Option Nat} (h : mountPoint s path = .ok (found, s')) :
    (s' = s ∨ ∃ r, vfsFindNode s path = .ok none ∧ vfsMkdir s path = .ok (r, s')) ∧
      ∀ n, found = some n → findDirectory s' path = .ok (some n) := by
  obtain ⟨node, hfind, hrest⟩ := Outcome.bind_eq_ok.mp h
  cases node with
  | some m =>
    obtain ⟨dir, hdir, hrest⟩ := Outcome.bind_eq_ok.mp hrest
    obtain ⟨rfl, rfl⟩ := Prod.mk.inj (Except.ok.inj hrest)
    exact ⟨.inl rfl, fun n hn => hn ▸ hdir⟩
  | none =>
    obtain ⟨⟨r, t⟩, hmade, hrest⟩ := Outcome.bind_eq_ok.mp hrest
    dsimp only at hrest
    split at hrest
    · obtain ⟨rfl, rfl⟩ := Prod.mk.inj (Except.ok.inj hrest)
      exact ⟨.inr ⟨r, hfind, hmade⟩, fun n hn => by cases hn⟩
    · obtain ⟨dir, hdir, hrest⟩ := Outcome.bind_eq_ok.mp hrest
      obtain ⟨rfl, rfl⟩ := Prod.mk.inj (Except.ok.inj hrest)
      exact ⟨.inr ⟨r, hfind, hmade⟩, fun n hn => hn ▸ hdir⟩

def preparedHost (s : VfsState) (hostPath : Bytes) : VfsState :=
  { s with host := (s.host.createDirectoryRecursive hostPath).2 }

theorem vfsMountPersistent_cases {hostPath : Bytes}
    (h : vfsMountPersistent s path hostPath = .ok (r, s')) :
    ∃ found t, mountPoint s path = .ok (found, t) ∧
      ((found = none ∧ s' = t) ∨ ∃ n, found = some n ∧
        vfsLoadHostDirectory maxPath (preparedHost t hostPath) n hostPath = .ok s') := by
  obtain ⟨⟨found, t⟩, hpoint, hrest⟩ := Outcome.bind_eq_ok.mp h
  refine ⟨found, t, hpoint, ?_⟩
  cases found with
  | none => exact .inl ⟨rfl, (Prod.mk.inj (Except.ok.inj hrest)).2.symm⟩
  | some n =>
    obtain ⟨t', hload, hrest⟩ := Outcome.bind_eq_ok.mp hrest
    obtain ⟨rfl, rfl⟩ := Prod.mk.inj (Except.ok.inj hrest)
    exact .inr ⟨n, rfl, hload⟩

end Mount

section Attributes

theorem vfsChmod_cases {mode : BitVec 32} (h : vfsChmod s path mode = .ok (r, s')) :
    s' = s ∨ ∃ n a, vfsFindNode s path = .ok (some n) ∧ Forest.valAt s.nodes n = some a ∧
      (s.identity.vfsIsRoot = true ∨ a.owner = s.identity.vfsCurrentUser) ∧
      s' = updateNode s n (withMode mode s.clock) := by
  rcases found_cases h with hnone | ⟨n, a, hfind, ha, hrest⟩
  · exact .inl (Prod.mk.inj hnone).2
  · split at hrest
    · exact .inl (Prod.mk.inj (Except.ok.inj hrest)).2.symm
    · next hmay =>
      refine .inr ⟨n, a, hfind, ha, ?_, (Prod.mk.inj (Except.ok.inj hrest)).2.symm⟩
      cases hroot : s.identity.vfsIsRoot with
      | true => exact .inl rfl
      | false => exact .inr (by simpa [hroot] using hmay)

theorem vfsChown_cases {owner group : Option Bytes} (h : vfsChown s path owner group = .ok (r, s')) :
    s' = s ∨ ∃ n, vfsFindNode s path = .ok (some n) ∧ s.identity.vfsIsRoot = true ∧
      s' = updateNode s n (withOwner owner group s.clock) := by
  obtain ⟨found, hfind, hrest⟩ := Outcome.bind_eq_ok.mp h
  cases found with
  | none => exact .inl (Prod.mk.inj (Except.ok.inj hrest)).2.symm
  | some n =>
    dsimp only at hrest
    split at hrest
    · exact .inl (Prod.mk.inj (Except.ok.inj hrest)).2.symm
    · next hroot =>
      exact .inr ⟨n, hfind, by simpa using hroot, (Prod.mk.inj (Except.ok.inj hrest)).2.symm⟩

theorem vfsChdir_cases (h : vfsChdir s path = .ok (r, s')) :
    s' = s ∨ ∃ directory, s' = { s with currentDirectory := directory } := by
  obtain ⟨found, hfind, hrest⟩ := Outcome.bind_eq_ok.mp h
  cases found with
  | none => exact .inl (Prod.mk.inj (Except.ok.inj hrest)).2.symm
  | some n => exact .inr ⟨_, (Prod.mk.inj (Except.ok.inj hrest)).2.symm⟩

end Attributes

end ZoraVM.Vfs
