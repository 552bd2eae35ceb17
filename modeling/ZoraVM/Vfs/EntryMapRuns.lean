import ZoraVM.Vfs.EntryMap

namespace ZoraVM.Vfs

open Foundation

variable {s s' : VfsState} {m : EntryMap} {path : Bytes}

section Creation

namespace Shows

variable (h : Shows s m)

include h

theorem create (dir : Bytes) {name : Bytes} {v : Attr} {e : Entry} (hname : v.name = name)
    (hdata : v.data = none) (hhost : v.hostPath = none) (he : entryOf s.blocks v = e) :
    (findDirectory s dir = .ok none ∧ m.create dir name e = (-1, m)) ∨
      ∃ parent, findDirectory s dir = .ok (some parent) ∧
        ((¬ Forest.childNamed Attr.name s.nodes parent name = none ∧ m.create dir name e = (0, m)) ∨
          (Forest.childNamed Attr.name s.nodes parent name = none ∧ (m.create dir name e).1 = 0 ∧
            ∀ t, t = { s with nodes := Forest.link s.nodes parent v, host := t.host } →
              Shows t (m.create dir name e).2)) := by
  subst hname he
  by_cases hin : m.entries.Inner (pathComponents dir)
  · obtain ⟨parent, hfind, hwalk, hparent⟩ := h.findDirectory_some hin
    refine .inr ⟨parent, hfind, ?_⟩
    have hchild := h.child_eq_none hwalk v.name
    by_cases hfree : m.entries.get (pathComponents dir ++ [v.name]) = none
    · refine .inr ⟨hchild.mpr hfree, ?_, fun t ht => ?_⟩
      · rw [EntryMap.create, dif_pos hin, dif_pos hfree]
      · rw [EntryMap.create, dif_pos hin, dif_pos hfree]
        exact h.link hwalk hparent hin hfree hdata hhost ht
    · refine .inl ⟨fun hnone => hfree (hchild.mp hnone), ?_⟩
      rw [EntryMap.create, dif_pos hin, dif_neg hfree]
  · refine .inl ⟨h.findDirectory_none hin, ?_⟩
    rw [EntryMap.create, dif_neg hin]

theorem entryOf_new (blocks : Heap Bytes) (name : Bytes) (isDirectory : Bool) (mode : BitVec 32) :
    entryOf blocks { vfsSetDefaultPermissions s (blankNode name isDirectory) s.identity.vfsCurrentUser
        s.identity.vfsCurrentGroup with mode := mode } = m.newEntry isDirectory mode := by
  rw [EntryMap.newEntry, h.identity, h.clock]
  rfl

theorem mkdir (hsplit : (splitPath path).isOk = true) :
    ∃ s', vfsMkdir s path = .ok ((m.call (.mkdir path)).1, s') ∧ Shows s' (m.call (.mkdir path)).2 := by
  cases hcut : splitPath path with
  | error e => rw [hcut] at hsplit; cases hsplit
  | ok ends =>
    obtain ⟨dir, name⟩ := ends
    have hname : (vfsCreateDirectoryNode s name).name = name :=
      clip_of_length_lt (name_of_split hcut)
    simp only [vfsMkdir, EntryMap.call, hcut, bind, Except.bind]
    rcases h.create dir hname rfl rfl (h.entryOf_new s.blocks name true defaultDirPerms) with
      ⟨hfind, hcreate⟩ | ⟨parent, hfind, ⟨htaken, hcreate⟩ | ⟨hfree, hzero, hshows⟩⟩
    · rw [hfind, hcreate]
      exact ⟨s, rfl, h⟩
    · rw [hfind, hcreate]
      refine ⟨s, if_pos ?_, h⟩
      exact Option.isSome_iff_ne_none.mpr htaken
    · rw [hfind, hzero]
      refine ⟨addNode s parent (vfsCreateDirectoryNode s name), ?_, hshows _ ?_⟩
      · simp only [hfree, Option.isSome_none, Bool.false_eq_true, if_false]
      · rw [addNode_eq]

theorem createFile (hsplit : (splitPath path).isOk = true)
    (hfresh : addsNoNamesake s (.createFile path) = true) :
    ∃ s', vfsCreateFile s path = .ok ((m.call (.createFile path)).1, s') ∧
      Shows s' (m.call (.createFile path)).2 := by
  cases hcut : splitPath path with
  | error e => rw [hcut] at hsplit; cases hsplit
  | ok ends =>
    obtain ⟨dir, name⟩ := ends
    have hname : (vfsCreateFileNode s name).name = name := clip_of_length_lt (name_of_split hcut)
    simp only [addsNoNamesake, freeName, hcut] at hfresh
    simp only [vfsCreateFile, EntryMap.call, hcut, bind, Except.bind]
    rcases h.create dir hname rfl rfl (h.entryOf_new s.blocks name false defaultFilePerms) with
      ⟨hfind, hcreate⟩ | ⟨parent, hfind, ⟨htaken, hcreate⟩ | ⟨hfree, hzero, hshows⟩⟩
    · rw [hfind, hcreate]
      exact ⟨s, rfl, h⟩
    · rw [hfind] at hfresh
      exact absurd (Option.isNone_iff_eq_none.mp hfresh) htaken
    · rw [hfind, hzero]
      exact ⟨_, rfl, hshows _ (by rw [addNode_eq])⟩

theorem createSymlink {link target : Bytes}
    (hfresh : addsNoNamesake s (.createSymlink link target) = true) :
    ∃ s', vfsCreateSymlink s link target = .ok ((m.call (.createSymlink link target)).1, s') ∧
      Shows s' (m.call (.createSymlink link target)).2 := by
  have hname : (vfsSymlinkNode s (splitLinkPath link).2 target).name = (splitLinkPath link).2 := by
    unfold splitLinkPath
    cases splitLast slash link <;> exact clip_clip 256 _
  have hentry : entryOf s.blocks (vfsSymlinkNode s (splitLinkPath link).2 target) =
      { m.newEntry false 0o777 with isSymlink := true, symlinkTarget := some target } := by
    rw [EntryMap.newEntry, h.identity, h.clock]
    rfl
  simp only [addsNoNamesake, freeName] at hfresh
  simp only [vfsCreateSymlink, EntryMap.call, bind, Except.bind]
  rcases h.create (splitLinkPath link).1 hname rfl rfl hentry with
    ⟨hfind, hcreate⟩ | ⟨parent, hfind, ⟨htaken, hcreate⟩ | ⟨hfree, hzero, hshows⟩⟩
  · rw [hfind, hcreate]
    exact ⟨s, rfl, h⟩
  · rw [hfind] at hfresh
    exact absurd (Option.isNone_iff_eq_none.mp hfresh) htaken
  · rw [hfind, hzero]
    exact ⟨_, rfl, hshows _ rfl⟩

end Shows

end Creation

section Removal

theorem EntryMap.remove_none {isDirectory : Bool} (hnone : m.entry path = none) :
    m.remove path isDirectory = (-1, m) := by
  rw [EntryMap.remove, dif_neg]
  rintro ⟨_, _, e, he, _⟩
  cases hnone.symm.trans he

theorem EntryMap.remove_other {isDirectory : Bool} {e : Entry} (he : m.entry path = some e)
    (hdir : e.isDirectory ≠ isDirectory) : m.remove path isDirectory = (-1, m) := by
  rw [EntryMap.remove, dif_neg]
  rintro ⟨_, _, e', he', hdir'⟩
  obtain rfl := Option.some.inj (he.symm.trans he')
  exact hdir hdir'

namespace Shows

variable (h : Shows s m)

include h

theorem entry_cases (path : Bytes) :
    (vfsFindNode s path = .ok none ∧ m.entry path = none) ∨
      ∃ n a, vfsFindNode s path = .ok (some n) ∧ Forest.valAt s.nodes n = some a ∧
        m.entry path = some (entryOf s.blocks a) := by
  have hfind := h.find_eq path
  cases hwalk : Forest.walk Attr.name s.nodes s.root (pathComponents path) with
  | none => exact .inl ⟨hwalk ▸ hfind, h.get_eq_none.mpr hwalk⟩
  | some n =>
    have hlive := h.sound.tree.live_walk h.sound.tree.root_live hwalk
    obtain ⟨a, ha⟩ := Forest.live_iff_valAt.mp hlive
    exact .inr ⟨n, a, hwalk ▸ hfind, ha, h.get_of_walk hwalk ha⟩

theorem deleteFile : ∃ s', vfsDeleteFile s path = .ok ((m.call (.deleteFile path)).1, s') ∧
    Shows s' (m.call (.deleteFile path)).2 := by
  rcases h.entry_cases path with ⟨hfind, hnone⟩ | ⟨n, a, hfind, ha, he⟩
  · rw [EntryMap.call, EntryMap.remove_none hnone]
    exact ⟨s, by simp [vfsDeleteFile, hfind, bind, Except.bind], h⟩
  · have hwalk := (vfsFindNode_ok hfind).2
    cases hdir : a.isDirectory with
    | true =>
      rw [EntryMap.call, EntryMap.remove_other he (by simp [entryOf, hdir])]
      exact ⟨s, by simp [vfsDeleteFile, hfind, nodeAt_of_valAt ha, hdir, bind, Except.bind], h⟩
    | false =>
      obtain ⟨blocks, hfree⟩ := h.sound.freeData_ok ha
      have hleaf := (h.leaf_iff hwalk).mpr (h.sound.leaves ha hdir)
      have hks : pathComponents path ≠ [] := by
        intro hnil
        rw [hnil] at hwalk
        obtain rfl := Option.some.inj hwalk
        exact Bool.false_ne_true (hdir.symm.trans (h.sound.root_directory ha))
      have hgone := h.unlink (t := withoutFile s n blocks) hwalk hks hleaf
        (fun hk hc hp => h.sound.freed_keeps ha hfree hk hc hp) rfl
      rw [EntryMap.call, EntryMap.remove, dif_pos ⟨hks, hleaf, _, he, hdir⟩]
      refine ⟨withoutFile s n blocks, ?_, hgone⟩
      simp [vfsDeleteFile, hfind, nodeAt_of_valAt ha, hdir, hfree, bind, Except.bind, withoutFile]

theorem rmdir (hkeep : keepsRoot s (.rmdir path) = true) :
    ∃ s', vfsRmdir s path = .ok ((m.call (.rmdir path)).1, s') ∧ Shows s' (m.call (.rmdir path)).2 := by
  rcases h.entry_cases path with ⟨hfind, hnone⟩ | ⟨n, a, hfind, ha, he⟩
  · rw [EntryMap.call, EntryMap.remove_none hnone]
    exact ⟨s, by simp [vfsRmdir, hfind, bind, Except.bind], h⟩
  · have hwalk := (vfsFindNode_ok hfind).2
    cases hdir : a.isDirectory with
    | false =>
      rw [EntryMap.call, EntryMap.remove_other he (by simp [entryOf, hdir])]
      exact ⟨s, by simp [vfsRmdir, hfind, nodeAt_of_valAt ha, hdir, bind, Except.bind], h⟩
    | true =>
      by_cases hnil : Forest.childrenOf s.nodes n = []
      · have hleaf := (h.leaf_iff hwalk).mpr hnil
        have hks : pathComponents path ≠ [] := by
          intro hroot
          rw [hroot] at hwalk
          obtain rfl := Option.some.inj hwalk
          simp [keepsRoot, hroot, hnil] at hkeep
        have hgone := h.unlink (t := withoutDirectory s n) hwalk hks hleaf (fun _ _ _ => rfl) rfl
        rw [EntryMap.call, EntryMap.remove, dif_pos ⟨hks, hleaf, _, he, hdir⟩]
        refine ⟨withoutDirectory s n, ?_, hgone⟩
        simp [vfsRmdir, hfind, nodeAt_of_valAt ha, hdir, hnil, bind, Except.bind, withoutDirectory]
      · have hfull : m.remove path true = (-1, m) := by
          rw [EntryMap.remove, dif_neg]
          rintro ⟨_, hleaf, _⟩
          exact hnil ((h.leaf_iff hwalk).mp hleaf)
        rw [EntryMap.call, hfull]
        exact ⟨s, by simp [vfsRmdir, hfind, nodeAt_of_valAt ha, hdir, hnil, bind, Except.bind], h⟩

end Shows

end Removal

section Content

namespace Shows

variable (h : Shows s m)

include h

theorem allows_eq (a : Attr) (required : BitVec 32) :
    (entryOf s.blocks a).allows m.identity required =
      permits s.identity a s.identity.vfsCurrentUser required := by
  rw [h.identity]
  rfl

theorem loadable_none {a : Attr} {n : Nat} (ha : Forest.valAt s.nodes n = some a) :
    loadable s a = none := by
  rw [loadable, h.unmounted ha]
  split <;> rfl

theorem readFile : ∃ found, vfsReadFile s path = .ok (found, s) ∧
    found.map (fun r => bytesAt s.blocks r.1 r.2) = m.read path := by
  rcases h.entry_cases path with ⟨hfind, hnone⟩ | ⟨n, a, hfind, ha, he⟩
  · refine ⟨none, by simp [vfsReadFile, hfind, bind, Except.bind], ?_⟩
    rw [EntryMap.read, hnone]
    rfl
  · have hallows := h.allows_eq a (permRead >>> 6)
    cases hdir : a.isDirectory with
    | true =>
      refine ⟨none, by simp [vfsReadFile, hfind, nodeAt_of_valAt ha, hdir, bind, Except.bind], ?_⟩
      rw [EntryMap.read, he]
      simp [entryOf, hdir]
    | false =>
      by_cases hperm : permits s.identity a s.identity.vfsCurrentUser (permRead >>> 6) = true
      · have hread := vfsReadFile_eq hfind ha hdir hperm
        have hcontent : m.read path = a.data.map fun p => bytesAt s.blocks (some p) a.size := by
          rw [EntryMap.read, he, Option.bind_some, hallows, hperm]
          simp [entryOf, hdir]
        rw [hcontent]
        cases hdata : a.data with
        | some p =>
          rw [hdata] at hread
          exact ⟨_, hread, rfl⟩
        | none =>
          rw [hdata, h.loadable_none ha] at hread
          exact ⟨none, hread, rfl⟩
      · refine ⟨none, vfsReadFile_denied hfind ha (by simpa using hperm), ?_⟩
        rw [EntryMap.read, he, Option.bind_some, hallows, Bool.eq_false_iff.mpr hperm, Bool.and_false]
        rfl

theorem writeFile (data : Bytes) :
    ∃ s', vfsWriteFile s path (.bytes data) data.length = .ok ((m.call (.writeFile path data)).1, s') ∧
      Shows s' (m.call (.writeFile path data)).2 := by
  rw [EntryMap.call, EntryMap.write, EntryMap.change]
  rcases h.entry_cases path with ⟨hfind, hnone⟩ | ⟨n, a, hfind, ha, he⟩
  · rw [hnone]
    exact ⟨s, by simp [vfsWriteFile, hfind, bind, Except.bind], h⟩
  · have hallows := h.allows_eq a (permWrite >>> 6)
    rw [he]
    dsimp only
    rw [hallows]
    cases hdir : a.isDirectory with
    | true =>
      rw [if_neg (by simp [entryOf, hdir])]
      exact ⟨s, by simp [vfsWriteFile, hfind, nodeAt_of_valAt ha, hdir, bind, Except.bind], h⟩
    | false =>
      by_cases hperm : permits s.identity a s.identity.vfsCurrentUser (permWrite >>> 6) = true
      · obtain ⟨blocks, hfree⟩ := h.sound.freeData_ok ha
        have hwrite := vfsWriteFile_eq hfind ha hdir hperm hfree (copyData_bytes blocks data)
        have hother := othersUnchanged_written h.sound ha hfree (if data = [] then none else some data)
        have hb := valAt_written blocks ha (if data = [] then none else some data)
        rw [if_pos (by simp [entryOf, hdir, hperm])]
        refine ⟨_, hwrite, h.modify _ (vfsFindNode_ok hfind).2 ha hb ?_ rfl (fun ls => ?_) hother
          (sound_written h.sound ha hfree _) (distinct_written h.distinct blocks _) ?_ ?_ ?_⟩
        · rw [h.clock]
          by_cases hd : data = []
          · simp [entryOf, touched, withData, hd]
          · simp [entryOf, touched, withData, hd, bytesAt, blocks_written]
        · have hroot : (written s n blocks (if data = [] then none else some data)).root = s.root := by
            rw [written_eq]
            split <;> rfl
          rw [hroot, nodes_written, nodes_storeData, Forest.walk_update (name_touched _),
            Forest.walk_update (name_withData _ _)]
        all_goals
          rw [written_eq]
          split <;> rfl
      · rw [if_neg (by simp [hperm])]
        have hcheck := vfsCheckPermission_eq hfind ha s.identity.vfsCurrentUser (permWrite >>> 6)
        exact ⟨s, by simp [vfsWriteFile, hfind, nodeAt_of_valAt ha, hdir, hcheck, hperm, bind,
          Except.bind], h⟩

end Shows

end Content

section Attributes

namespace Shows

variable (h : Shows s m)

include h

theorem updateNode {f : Attr → Attr} {g : Entry → Entry} {n : Nat} {a : Attr}
    (hg : ∀ e, e.isDirectory = true → (g e).isDirectory = true)
    (hwalk : Forest.walk Attr.name s.nodes s.root (pathComponents path) = some n)
    (ha : Forest.valAt s.nodes n = some a) (hname : ∀ b, (f b).name = b.name)
    (hdir : (f a).isDirectory = a.isDirectory) (hdata : (f a).data = a.data)
    (hsize : (f a).size = a.size) (hhost : (f a).hostPath = a.hostPath)
    (hentry : entryOf s.blocks (f a) = g (entryOf s.blocks a)) :
    Shows (updateNode s n f) { m with entries := m.entries.modify (pathComponents path) g hg } := by
  refine h.modify hg hwalk ha (b := f a) ?_ hentry hhost (fun ls => ?_) (fun k hk => ⟨?_, ?_⟩)
    (h.sound.update_attr ha hdir hdata hsize) (h.distinct.update hname n) rfl rfl rfl
  · rw [Vfs.updateNode, Forest.valAt_update_self, ha]
    rfl
  · exact Forest.walk_update hname s.root ls
  · exact Forest.valAt_update_of_ne f hk
  · exact fun _ _ _ _ => rfl

theorem chmod (mode : BitVec 32) : ∃ s', vfsChmod s path mode = .ok ((m.call (.chmod path mode)).1, s') ∧
    Shows s' (m.call (.chmod path mode)).2 := by
  have hmay : ∀ a, (m.identity.vfsIsRoot || (entryOf s.blocks a).owner == m.identity.vfsCurrentUser) =
      (s.identity.vfsIsRoot || a.owner == s.identity.vfsCurrentUser) := fun a => by
    rw [h.identity]
    rfl
  rw [EntryMap.call, EntryMap.chmod, EntryMap.change]
  rcases h.entry_cases path with ⟨hfind, hnone⟩ | ⟨n, a, hfind, ha, he⟩
  · rw [hnone]
    exact ⟨s, by simp [vfsChmod, hfind, bind, Except.bind], h⟩
  · rw [he]
    dsimp only
    rw [hmay]
    by_cases hallowed : s.identity.vfsIsRoot = true ∨ a.owner = s.identity.vfsCurrentUser
    · rw [if_pos (by simpa using hallowed)]
      refine ⟨Vfs.updateNode s n (withMode mode s.clock), ?_, ?_⟩
      · rcases hallowed with hroot | howner
        · simp [vfsChmod, hfind, nodeAt_of_valAt ha, hroot, bind, Except.bind]
        · simp [vfsChmod, hfind, nodeAt_of_valAt ha, howner, bind, Except.bind]
      · rw [← h.clock]
        exact h.updateNode _ (vfsFindNode_ok hfind).2 ha (fun _ => rfl) rfl rfl rfl rfl rfl
    · rw [if_neg (by simpa using hallowed)]
      obtain ⟨hroot, howner⟩ := not_or.mp hallowed
      exact ⟨s, by simp [vfsChmod, hfind, nodeAt_of_valAt ha, hroot, howner, bind, Except.bind], h⟩

theorem chown (owner group : Option Bytes) :
    ∃ s', vfsChown s path owner group = .ok ((m.call (.chown path owner group)).1, s') ∧
      Shows s' (m.call (.chown path owner group)).2 := by
  have hroot := congrArg Identity.vfsIsRoot h.identity
  rw [EntryMap.call, EntryMap.chown, EntryMap.change]
  rcases h.entry_cases path with ⟨hfind, hnone⟩ | ⟨n, a, hfind, ha, he⟩
  · rw [hnone]
    exact ⟨s, by simp [vfsChown, hfind, bind, Except.bind], h⟩
  · rw [he]
    cases hmay : m.identity.vfsIsRoot with
    | true =>
      refine ⟨Vfs.updateNode s n (withOwner owner group s.clock), ?_, ?_⟩
      · simp [vfsChown, hfind, ← hroot, hmay, bind, Except.bind]
      · rw [← h.clock]
        exact h.updateNode _ (vfsFindNode_ok hfind).2 ha (fun _ => rfl) rfl rfl rfl rfl rfl
    | false => exact ⟨s, by simp [vfsChown, hfind, ← hroot, hmay, bind, Except.bind], h⟩

theorem chdir : ∃ s', vfsChdir s path = .ok ((m.call (.chdir path)).1, s') ∧
    Shows s' (m.call (.chdir path)).2 := by
  have hpath : m.newDirectory path =
      if path.head? = some slash then clip 256 path
      else if s.currentDirectory = [slash] then clip 256 (slash :: path)
      else clip 256 (s.currentDirectory ++ slash :: path) := by
    rw [EntryMap.newDirectory, h.currentDirectory]
  rw [EntryMap.call, vfsChdir, ← hpath]
  by_cases hin : m.entries.Inner (pathComponents (m.newDirectory path))
  · obtain ⟨n, hfind, -, -⟩ := h.findDirectory_some hin
    rw [if_pos hin, hfind]
    exact ⟨_, rfl, { h with currentDirectory := rfl }⟩
  · rw [if_neg hin, h.findDirectory_none hin]
    exact ⟨s, rfl, h⟩

end Shows

end Attributes

section Runs

variable {junk : Attr} {host : Host} {clock : Nat} {s₀ : VfsState} {cs : List VfsCall}

theorem Shows.call (h : Shows s m) {c : VfsCall} (hmapped : mapped s c = true)
    (hsplits : splits c = true) :
    ∃ s', vfsCall s c = .ok ((m.call c).1, s') ∧ Shows s' (m.call c).2 := by
  obtain ⟨⟨hfresh, hkeep⟩, hmount⟩ : (addsNoNamesake s c = true ∧ keepsRoot s c = true) ∧ _ = true := by
    simpa only [mapped, Bool.and_eq_true] using hmapped
  cases c with
  | mkdir path => exact h.mkdir hsplits
  | createFile path => exact h.createFile hsplits hfresh
  | createSymlink link target => exact h.createSymlink hfresh
  | deleteFile path => exact h.deleteFile
  | rmdir path => exact h.rmdir hkeep
  | writeFile path data => exact h.writeFile data
  | readFile path =>
    obtain ⟨found, hread, hcontent⟩ := @Shows.readFile _ _ path h
    refine ⟨s, ?_, h⟩
    have hsome : (m.read path).isSome = found.isSome := by rw [← hcontent, Option.isSome_map]
    rw [vfsCall, hread, EntryMap.call, hsome]
    rfl
  | chmod path mode => exact h.chmod mode
  | chown path owner group => exact h.chown owner group
  | chdir path => exact h.chdir
  | mountPersistent vmPath hostPath => cases hmount
  | setHostRoot hostRoot => exact ⟨_, rfl, { h with }⟩
  | identify identity => exact ⟨_, rfl, { h with identity := rfl }⟩
  | hostChange entries mayRead mayWrite => exact ⟨_, rfl, { h with }⟩
  | wait clock => exact ⟨_, rfl, { h with clock := rfl }⟩

theorem splits_of_step {c : VfsCall} (hstep : vfsStep s c = some s') : splits c = true := by
  obtain ⟨r, hcall⟩ := vfsStep_eq hstep
  cases c with
  | mkdir path =>
    obtain ⟨ends, hsplit, -⟩ := Outcome.bind_eq_ok.mp hcall
    rw [splits, hsplit]
    rfl
  | createFile path =>
    obtain ⟨ends, hsplit, -⟩ := Outcome.bind_eq_ok.mp hcall
    rw [splits, hsplit]
    rfl
  | _ => rfl

theorem Shows.step (h : Shows s m) {c : VfsCall} (hmapped : mapped s c = true)
    (hstep : vfsStep s c = some s') : Shows s' (m.call c).2 := by
  obtain ⟨t, hcall, hshows⟩ := h.call hmapped (splits_of_step hstep)
  obtain ⟨r, hcall'⟩ := vfsStep_eq hstep
  obtain ⟨-, rfl⟩ := Prod.mk.inj (Except.ok.inj (hcall.symm.trans hcall'))
  exact hshows

theorem shows_blank (junk : Attr) (host : Host) (clock : Nat) :
    Shows (blankVfs junk host clock) (EntryMap.blank junk clock) := by
  have hval : ∀ {n a}, Forest.valAt (blankVfs junk host clock).nodes n = some a → a = rootNode junk := by
    intro n a ha
    have hcase := (Forest.valAt_single (rootNode junk) n).symm.trans ha
    split at hcase
    · exact (Option.some.inj hcase).symm
    · cases hcase
  refine ⟨sound_blank junk host clock, fun n => ?_, fun ha => ?_, fun ks => ?_, rfl, rfl, rfl⟩
  · rw [show Forest.childrenOf (blankVfs junk host clock).nodes n = [] from Forest.childrenOf_single _ n]
    exact List.nodup_nil
  · rw [hval ha]
    rfl
  · cases ks with
    | nil => rfl
    | cons k ks =>
      have hnone : Forest.childNamed Attr.name (blankVfs junk host clock).nodes
          (blankVfs junk host clock).root k = none :=
        Forest.childNamed_of_leaf (Forest.childrenOf_single _ _)
      rw [entryAt, Forest.walk, hnone]
      rfl

theorem mapped_mkdir (s : VfsState) (path : Bytes) : mapped s (.mkdir path) = true := rfl

theorem shows_booted (hinit : vfsInit junk host clock = .ok s₀) :
    Shows s₀ (EntryMap.booted junk clock) := by
  have hboot : ∀ (dirs : List Bytes) (s : VfsState) (m : EntryMap), Shows s m →
      dirs.foldlM (fun s path => Prod.snd <$> vfsMkdir s path) s = .ok s₀ →
      Shows s₀ (m.calls (dirs.map .mkdir)) := by
    intro dirs
    induction dirs with
    | nil =>
      intro s m h hrun
      obtain rfl := Except.ok.inj hrun
      exact h
    | cons path dirs ih =>
      intro s m h hrun
      rw [List.foldlM_cons] at hrun
      obtain ⟨t, hmade, hrest⟩ := Outcome.bind_eq_ok.mp hrun
      obtain ⟨⟨r, t'⟩, hcall, rfl⟩ := Outcome.map_eq_ok.mp hmade
      have hstep : vfsStep s (.mkdir path) = some t' := by
        have hvfs : vfsCall s (.mkdir path) = .ok (r, t') := hcall
        rw [vfsStep, hvfs]
      exact ih t' _ (h.step (mapped_mkdir s path) hstep) hrest
  exact hboot _ _ _ (shows_blank junk host clock) hinit

theorem EntryMap.calls_nil (m : EntryMap) : m.calls [] = m := rfl

theorem EntryMap.calls_concat (m : EntryMap) (cs : List VfsCall) (c : VfsCall) :
    m.calls (cs ++ [c]) = ((m.calls cs).call c).2 := by
  simp only [EntryMap.calls, List.foldl_append, List.foldl_cons, List.foldl_nil]

theorem shows_run (hinit : vfsInit junk host clock = .ok s₀)
    (hrun : Run vfsStep (fun s c => mapped s c = true) s₀ cs s) :
    Shows s ((EntryMap.booted junk clock).calls cs) := by
  induction hrun with
  | start =>
    rw [EntryMap.calls_nil]
    exact shows_booted hinit
  | call _ hmapped hstep ih =>
    rw [EntryMap.calls_concat]
    exact ih.step hmapped hstep

structure Agrees (s : VfsState) (m : EntryMap) : Prop where
  entries : ∀ ks, entryAt s ks = m.entries.get ks
  contents : ∀ path, readBytes s path = m.read path
  answers : ∀ c, mapped s c = true → splits c = true → ∃ s', vfsCall s c = .ok ((m.call c).1, s')

theorem Shows.agrees (h : Shows s m) : Agrees s m := by
  refine ⟨fun ks => (h.entries ks).symm, fun path => ?_, fun c hmapped hsplits => ?_⟩
  · obtain ⟨found, hread, hcontent⟩ := @Shows.readFile _ _ path h
    rw [readBytes, hread, ← hcontent]
    cases found <;> rfl
  · obtain ⟨s', hcall, -⟩ := h.call hmapped hsplits
    exact ⟨s', hcall⟩

-- However nodes are linked and blocks handed out, the file system is a map from paths.
theorem vfs_refines_map (hinit : vfsInit junk host clock = .ok s₀)
    (hrun : Run vfsStep (fun s c => mapped s c = true) s₀ cs s) :
    Agrees s ((EntryMap.booted junk clock).calls cs) :=
  (shows_run hinit hrun).agrees

def mapSample : List VfsCall :=
  [.mkdir (str "/tmp/d"), .createFile (str "/tmp/d/f"), .writeFile (str "/tmp/d/f") (str "one"),
    .chmod (str "/tmp/d/f") 0o600, .rmdir (str "/tmp/d"), .writeFile (str "/tmp/d/f") (str "two"),
    .createSymlink (str "/tmp/l") (str "/tmp/d"), .deleteFile (str "/tmp/l"), .chdir (str "/tmp/d")]

theorem booted_eq (h : (vfsInit junkNode host 0).isOk = true) :
    vfsInit junkNode host 0 = .ok (booted host) := by
  unfold booted
  cases hinit : vfsInit junkNode host 0 with
  | ok s => rfl
  | error e => simp [hinit, Except.isOk, Except.toBool] at h

theorem vfs_refines_map_sample :
    Agrees (ran mapped (openHost []) mapSample) ((EntryMap.booted junkNode 0).calls mapSample) :=
  vfs_refines_map (booted_eq (by decide +kernel)) (Run.of_exec_isSome (by decide +kernel))

end Runs

end ZoraVM.Vfs
