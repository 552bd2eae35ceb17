import ZoraVM.Shell.CopyCommand

namespace ZoraVM.Shell

open Foundation Vfs

variable {s : VfsState} {p q dir name c r : Bytes} {n m parent : Nat} {a b e : Attr}

section Move

variable {t : VfsState} {found : Option Nat} {d : Nat} {blocks : Heap Bytes}

theorem copiedTo_cases (t : VfsState) (found : Option Nat) (a : Attr) (c : Bytes) :
    copiedTo t found a c = t ∨ ∃ d, found = some d ∧ a.data ≠ none ∧
      copiedTo t found a c = storeData t d t.blocks (some c) := by
  cases found with
  | none => exact .inl rfl
  | some d =>
    by_cases hdata : a.data = none
    · exact .inl (copiedTo_unloaded hdata)
    · exact .inr ⟨d, rfl, hdata, copiedTo_some hdata⟩

theorem find_copiedTo : vfsFindNode (copiedTo t found a c) r = vfsFindNode t r := by
  rcases copiedTo_cases t found a c with heq | ⟨d, _, _, heq⟩
  · rw [heq]
  · rw [heq, find_storeData]

theorem root_copiedTo : (copiedTo t found a c).root = t.root := by
  rcases copiedTo_cases t found a c with heq | ⟨d, _, _, heq⟩
  · rw [heq]
  · rw [heq]
    rfl

theorem tree_copiedTo (h : Forest.WellFormed t.nodes t.root) :
    Forest.WellFormed (copiedTo t found a c).nodes (copiedTo t found a c).root := by
  rw [root_copiedTo]
  rcases copiedTo_cases t found a c with heq | ⟨d, _, _, heq⟩
  · rw [heq]
    exact h
  · rw [heq, nodes_storeData]
    exact h.update d _

theorem childrenOf_copiedTo (k : Nat) :
    Forest.childrenOf (copiedTo t found a c).nodes k = Forest.childrenOf t.nodes k := by
  rcases copiedTo_cases t found a c with heq | ⟨d, _, _, heq⟩
  · rw [heq]
  · rw [heq, nodes_storeData, Forest.childrenOf_update]

theorem alone_copiedTo (n : Nat) : Alone (copiedTo t found a c).nodes n ↔ Alone t.nodes n := by
  rcases copiedTo_cases t found a c with heq | ⟨d, _, _, heq⟩
  · rw [heq]
  · rw [heq, nodes_storeData]
    simp only [Alone, Forest.parentOf_update, Forest.childrenOf_update,
      Forest.keyAt_update (name_withData _ _)]

theorem valAt_copiedTo (ha : Forest.valAt t.nodes n = some e) (hne : found ≠ some n) :
    Forest.valAt (copiedTo t found a c).nodes n = some e := by
  rcases copiedTo_cases t found a c with heq | ⟨d, rfl, _, heq⟩
  · rw [heq, ha]
  · have hd : n ≠ d := fun he => hne (he ▸ rfl)
    rw [heq, nodes_storeData, Forest.valAt_update_of_ne _ hd, ha]

theorem readBytes_copied_removed (htree : Forest.WellFormed t.nodes t.root)
    (hleaf : Forest.childrenOf t.nodes n = []) (hroot : n ≠ t.root) {pa : Nat}
    (hpa : pa < t.blocks.size) (hdata : a.data ≠ none) (hfind : vfsFindNode t r = .ok (some d))
    (hd : d ≠ n) (he : Forest.valAt t.nodes d = some e) (hfile : e.isDirectory = false) :
    readBytes (withoutFile (copiedTo t (some d) a c) n ((t.blocks.alloc c).free pa)) r =
      if permits t.identity e t.identity.vfsCurrentUser (permRead >>> 6) = true then some c
      else none := by
  have hval : Forest.valAt (copiedTo t (some d) a c).nodes d =
      some (withData ((some c).map fun _ => t.blocks.size) (((some c).map List.length).getD 0) e) := by
    rw [copiedTo_some hdata]
    exact valAt_storeData he (some c)
  have hleaf' : Forest.childrenOf (copiedTo t (some d) a c).nodes n = [] := by
    rw [childrenOf_copiedTo, hleaf]
  have hroot' : n ≠ (copiedTo t (some d) a c).root := by rwa [root_copiedTo]
  have hfind' : vfsFindNode (copiedTo t (some d) a c) r = .ok (some d) := by
    rw [find_copiedTo, hfind]
  have hread := readBytes_withoutFile ((t.blocks.alloc c).free pa) (tree_copiedTo htree)
    hleaf' hroot' hfind' hd hval hfile
  rw [hread]
  have hne : t.blocks.size ≠ pa := Nat.ne_of_gt hpa
  have hcontent : contentOf (withoutFile (copiedTo t (some d) a c) n ((t.blocks.alloc c).free pa))
      (withData ((some c).map fun _ => t.blocks.size) (((some c).map List.length).getD 0) e) =
        some c := by
    simp [contentOf, withData, bytesAt, withoutFile, Heap.get_free_of_ne hne]
  rw [hcontent, copiedTo_some hdata]
  rfl

end Move

section Moved

variable {src dest : Bytes} {found : Option Nat} {blocks : Heap Bytes} {r' : Int} {t' : VfsState}
  (S : Source s p n a c) (hp : IsDirectory s.nodes parent) (hname : name.length < 256)

include S hp

theorem leaf_made : Forest.childrenOf (made s parent name).nodes n = [] := by
  have hne : n ≠ parent := by
    rintro rfl
    obtain ⟨d, hd, hdir⟩ := hp
    obtain rfl := Option.some.inj (hd.symm.trans S.node)
    exact Bool.false_ne_true (S.file.symm.trans hdir)
  rw [made_eq]
  exact (Forest.childrenOf_link hp.live _ n).trans ((if_neg hne).trans (S.sound.leaves S.node S.file))

include hname

theorem not_alone_shadowing (hn : Forest.childNamed Attr.name s.nodes parent name = some n) :
    ¬ Alone (made s parent name).nodes s.nodes.size := by
  have hnode : (vfsCreateFileNode s name).name = name := clip_of_length_lt hname
  obtain ⟨hmem, hkey⟩ := Forest.childNamed_eq_some hn
  intro halone
  rw [made_eq] at halone
  refine S.ne_fresh (halone parent ?_ n ?_ ?_)
  · simp [Forest.parentOf_link hp.live]
  · simp [Forest.childrenOf_link hp.live, hmem]
  · simp [Forest.keyAt_link hp.live, S.ne_fresh, hkey, hnode]

omit hname hp

variable (hsrc : fullPath s.currentDirectory src = p) (hdest : fullPath s.currentDirectory dest = q)
  (hsplit : splitPath q = .ok (dir, name))

include hsrc hdest hsplit

theorem mvCommand_notCreated (hdir : findDirectory s dir = .ok none) :
    mvCommand s src dest = .ok (.notCreated, s) := by
  have hcreate := vfsCreateFile_eq hsplit hdir
  simp [mvCommand, hsrc, hdest, S.find, nodeAt_of_valAt S.node, S.file, hcreate, bind, Except.bind]

variable (hdir : findDirectory s dir = .ok (some parent))
  (hfound : vfsFindNode (made s parent name) q = .ok found) (hne : found ≠ some n)

include hdir hfound hne

theorem mvCommand_eq (hdelete : vfsDeleteFile (copiedTo (made s parent name) found a c) p = .ok (r', t')) :
    mvCommand s src dest = .ok (if r' = 0 then .moved else .notRemoved, t') := by
  have hcreate := vfsCreateFile_eq hsplit hdir
  have hcopy : copyNodeData (made s parent name) n found =
      .ok (copiedTo (made s parent name) found a c) := by
    refine copyNodeData_eq (valAt_made_old (isDirectory_of_find hdir) name S.node) ?_ hne
    intro pa hpa
    rw [made_eq]
    exact S.stored hpa
  simp [mvCommand, hsrc, hdest, S.find, nodeAt_of_valAt S.node, S.file, hcreate, hfound, hcopy,
    hdelete, bind, Except.bind]

theorem moveKeeps_spared (hspares : sparesPath s p parent name = true)
    (hfree : freeData (copiedTo (made s parent name) found a c).blocks a.data = .ok blocks) :
    MoveKeeps s src dest c ↔ Alone s.nodes n ∧
      readBytes (withoutFile (copiedTo (made s parent name) found a c) n blocks) q = some c := by
  have hp := isDirectory_of_find hdir
  have hname := name_of_split hsplit
  have hfind : vfsFindNode (copiedTo (made s parent name) found a c) p = .ok (some n) := by
    rw [find_copiedTo, find_made S.sound hp hname hspares, S.find]
  have hval := valAt_copiedTo (a := a) (c := c) (valAt_made_old hp name S.node) hne
  have hdelete := vfsDeleteFile_eq hfind hval S.file hfree
  have hcall := mvCommand_eq S hsrc hdest hsplit hdir hfound hne hdelete
  have hleaf : Forest.childrenOf (copiedTo (made s parent name) found a c).nodes n = [] := by
    rw [childrenOf_copiedTo, leaf_made S hp]
  have hroot : n ≠ (copiedTo (made s parent name) found a c).root := by
    rw [root_copiedTo, made_eq]
    exact S.ne_root
  have hgone := find_withoutFile_self blocks (tree_copiedTo (tree_made S.sound hp)) hleaf hroot hfind
  rw [alone_copiedTo, alone_made S.sound hp hname S.node S.find hspares] at hgone
  simp [MoveKeeps, hcall, hsrc, hdest, hgone, and_comm]

theorem not_moveKeeps_shadowed (hspares : sparesPath s p parent name = false)
    (hold : found ≠ some s.nodes.size) : ¬ MoveKeeps s src dest c := by
  have hp := isDirectory_of_find hdir
  have hname := name_of_split hsplit
  have hunread : readBytes (copiedTo (made s parent name) found a c) p = none :=
    readBytes_shadowed S hp hname hspares hold
  rcases S.shadowed hp hname hspares with hfind | ⟨hfind, hchild⟩
  · have habsent : vfsFindNode (copiedTo (made s parent name) found a c) p = .ok none :=
      find_copiedTo.trans hfind
    have hdelete := vfsDeleteFile_absent habsent
    have hcall := mvCommand_eq S hsrc hdest hsplit hdir hfound hne hdelete
    simp [MoveKeeps, hcall, hsrc, hunread]
  · have hfind' : vfsFindNode (copiedTo (made s parent name) found a c) p =
        .ok (some s.nodes.size) := by rw [find_copiedTo, hfind]
    have hval : Forest.valAt (copiedTo (made s parent name) found a c).nodes s.nodes.size =
        some (vfsCreateFileNode s name) :=
      valAt_copiedTo (by rw [valAt_made hp, if_pos rfl]) hold
    have hdelete := vfsDeleteFile_eq hfind' hval rfl rfl
    have hcall := mvCommand_eq S hsrc hdest hsplit hdir hfound hne hdelete
    have hfresh : s.nodes.size ≠ parent := Nat.ne_of_gt (Forest.live_lt_size hp.live)
    have hleaf : Forest.childrenOf (copiedTo (made s parent name) found a c).nodes s.nodes.size =
        [] := by
      rw [childrenOf_copiedTo, made_eq]
      exact (Forest.childrenOf_link hp.live _ _).trans
        ((if_neg hfresh).trans (Forest.childrenOf_size s.nodes))
    have hroot : s.nodes.size ≠ (copiedTo (made s parent name) found a c).root := by
      rw [root_copiedTo, made_eq]
      exact Nat.ne_of_gt (Forest.live_lt_size S.sound.tree.root_live)
    have hgone := find_withoutFile_self (copiedTo (made s parent name) found a c).blocks
      (tree_copiedTo (tree_made S.sound hp)) hleaf hroot hfind'
    rw [alone_copiedTo] at hgone
    have hstays := not_alone_shadowing S hp hname hchild
    simp [MoveKeeps, hcall, hsrc, hgone, hstays]

omit hdir hfound hne hsrc hdest hsplit in
theorem freeData_copiedTo (d : Nat) {pa : Nat} (hpa : a.data = some pa) :
    freeData (copiedTo (made s parent name) (some d) a c).blocks a.data =
      .ok ((s.blocks.alloc c).free pa) := by
  obtain ⟨blk, hblk, _⟩ := S.stored hpa
  have hlt := S.sound.lt_size S.node hpa
  have hlive : (s.blocks.alloc c).live pa = true := by
    rw [Heap.live, Heap.get_alloc_of_ne (Nat.ne_of_lt hlt), hblk]
    rfl
  have hblocks : (copiedTo (made s parent name) (some d) a c).blocks = s.blocks.alloc c := by
    rw [copiedTo_some (by rw [hpa]; exact Option.some_ne_none pa), made_eq]
    rfl
  rw [hblocks, hpa, freeData, if_pos hlive]

theorem moveKeeps_new (hfind : found = some s.nodes.size) (hlen : q.length < 256)
    (hspares : sparesPath s p parent name = true) (kept : Attr → Prop) :
    MoveKeeps s src dest c ↔ Alone s.nodes n ∧
      ((q.length < 256 ∧ a.data ≠ none) ∨ CutToFile s p q a parent name kept) := by
  subst hfind
  have hp := isDirectory_of_find hdir
  have hnotcut : ¬ CutToFile s p q a parent name kept := fun h => by
    have hlong := h.1
    omega
  have htree : Forest.WellFormed (made s parent name).nodes (made s parent name).root :=
    tree_made S.sound hp
  have hleaf : Forest.childrenOf (made s parent name).nodes n = [] := leaf_made S hp
  have hroot : n ≠ (made s parent name).root := by
    rw [made_eq]
    exact S.ne_root
  have hval : Forest.valAt (made s parent name).nodes s.nodes.size =
      some (vfsCreateFileNode s name) := by rw [valAt_made hp, if_pos rfl]
  simp only [hlen, true_and, hnotcut, or_false]
  cases hdata : a.data with
  | none =>
    have hfree : freeData (copiedTo (made s parent name) (some s.nodes.size) a c).blocks a.data =
        .ok (made s parent name).blocks := by
      rw [copiedTo_unloaded hdata, hdata]
      rfl
    have hempty : contentOf (withoutFile (made s parent name) n (made s parent name).blocks)
        (vfsCreateFileNode s name) = none := rfl
    rw [moveKeeps_spared S hsrc hdest hsplit hdir hfound hne hspares hfree, copiedTo_unloaded hdata,
      readBytes_withoutFile _ htree hleaf hroot hfound S.ne_fresh.symm hval rfl, hempty]
    simp
  | some pa =>
    have hsome : a.data ≠ none := by simp [hdata]
    have hblocks : (made s parent name).blocks = s.blocks := by rw [made_eq]
    have hlt : pa < (made s parent name).blocks.size := hblocks ▸ S.sound.lt_size S.node hdata
    have hread := readBytes_copied_removed (a := a) (c := c) htree hleaf hroot hlt hsome hfound
      S.ne_fresh.symm hval rfl
    rw [if_pos (permits_newFile _ s name _), hblocks] at hread
    rw [moveKeeps_spared S hsrc hdest hsplit hdir hfound hne hspares
      (freeData_copiedTo S s.nodes.size hdata), hread]
    simp

theorem moveKeeps_absent (hnone : found = none) {shown : Bytes}
    (hq : pathComponents q = pathComponents dir ++ [shown])
    (hspares : sparesPath s p parent name = true) : ¬ MoveKeeps s src dest c := by
  subst hnone
  have hp := isDirectory_of_find hdir
  have hparent : parent ≠ n := by
    rintro rfl
    obtain ⟨d, hd, hisdir⟩ := hp
    obtain rfl := Option.some.inj (hd.symm.trans S.node)
    exact Bool.false_ne_true (S.file.symm.trans hisdir)
  have hroot : n ≠ (made s parent name).root := by
    rw [made_eq]
    exact S.ne_root
  obtain ⟨_, hwalk, _⟩ := findDirectory_ok_some hdir
  have hwalk' : Forest.walk Attr.name (made s parent name).nodes (made s parent name).root
      (pathComponents dir) = some parent := by
    rw [made_eq]
    exact S.sound.tree.walk_link hp.live hwalk
  obtain ⟨blocks, hfree⟩ : ∃ blocks, freeData (copiedTo (made s parent name) none a c).blocks a.data =
      .ok blocks := by
    rw [copiedTo_nowhere, made_eq]
    exact S.sound.freeData_ok S.node
  have hgone := find_withoutFile_none blocks (tree_made S.sound hp) (leaf_made S hp) hroot hparent
    hwalk' hq hfound
  rw [moveKeeps_spared S hsrc hdest hsplit hdir hfound hne hspares hfree, copiedTo_nowhere,
    readBytes_absent hgone]
  simp

theorem moveKeeps_over (hm : found = some m) (hb : Forest.valAt s.nodes m = some b)
    (hfile : b.isDirectory = false) (hspares : sparesPath s p parent name = true) :
    MoveKeeps s src dest c ↔ Alone s.nodes n ∧
      permits s.identity b s.identity.vfsCurrentUser (permRead >>> 6) = true ∧
      (a.data ≠ none ∨ contentOf (withoutFile (made s parent name) n s.blocks) b = some c) := by
  subst hm
  have hp := isDirectory_of_find hdir
  have hmn : m ≠ n := fun he => hne (he ▸ rfl)
  have htree : Forest.WellFormed (made s parent name).nodes (made s parent name).root :=
    tree_made S.sound hp
  have hleaf : Forest.childrenOf (made s parent name).nodes n = [] := leaf_made S hp
  have hroot : n ≠ (made s parent name).root := by
    rw [made_eq]
    exact S.ne_root
  have hval := valAt_made_old hp name hb
  have hblocks : (made s parent name).blocks = s.blocks := by rw [made_eq]
  have hidentity : (made s parent name).identity = s.identity := by rw [made_eq]
  cases hdata : a.data with
  | none =>
    have hfree : freeData (copiedTo (made s parent name) (some m) a c).blocks a.data =
        .ok s.blocks := by
      rw [copiedTo_unloaded hdata, hdata, hblocks]
      rfl
    rw [moveKeeps_spared S hsrc hdest hsplit hdir hfound hne hspares hfree, copiedTo_unloaded hdata,
      readBytes_withoutFile _ htree hleaf hroot hfound hmn hval hfile, hidentity]
    simp
  | some pa =>
    have hsome : a.data ≠ none := by simp [hdata]
    have hlt : pa < (made s parent name).blocks.size := hblocks ▸ S.sound.lt_size S.node hdata
    have hread := readBytes_copied_removed (a := a) (c := c) htree hleaf hroot hlt hsome hfound hmn
      hval hfile
    rw [hblocks, hidentity] at hread
    rw [moveKeeps_spared S hsrc hdest hsplit hdir hfound hne hspares (freeData_copiedTo S m hdata),
      hread]
    simp

omit hfound hne in
theorem moveKeeps_created (hother : AbsentOrOther s q n) :
    MoveKeeps s src dest c ↔ Alone s.nodes n ∧ ((q.length < 256 ∧ a.data ≠ none) ∨
      CutToFile s p q a parent name fun b =>
        contentOf (withoutFile (made s parent name) n s.blocks) b = some c) := by
  have hp := isDirectory_of_find hdir
  rcases S.destination hp hother hsplit hdir with ⟨hlen, hfind, hspares⟩ | ⟨hlen, hfind, shown, hq⟩
  · exact moveKeeps_new S hsrc hdest hsplit hdir hfind
      (fun he => S.ne_fresh (Option.some.inj he).symm) rfl hlen hspares _
  · have hshort : ¬ q.length < 256 := by omega
    simp only [hshort, false_and, false_or]
    rcases hother with hnone | ⟨m, b, hm, hmn, hb, hfile, _⟩
    · have hfound := hfind.trans hnone
      have hnocut : ∀ kept, ¬ CutToFile s p q a parent name kept := by
        rintro kept ⟨_, _, m, _, hm, _⟩
        rw [hnone] at hm
        cases hm
      have hlost : ¬ MoveKeeps s src dest c := by
        cases hspares : sparesPath s p parent name with
        | false =>
          exact not_moveKeeps_shadowed S hsrc hdest hsplit hdir hfound (fun he => by cases he) hspares
            fun he => by cases he
        | true =>
          exact moveKeeps_absent S hsrc hdest hsplit hdir hfound (fun he => by cases he) rfl hq hspares
      simp [hlost, hnocut]
    · have hfound := hfind.trans hm
      have hne : some m ≠ some n := fun he => hmn (Option.some.inj he)
      have hfresh : some m ≠ some s.nodes.size := fun he =>
        Nat.ne_of_lt (Forest.live_lt_size (Forest.live_iff_valAt.mpr ⟨b, hb⟩)) (Option.some.inj he)
      have hcut : ∀ kept, CutToFile s p q a parent name kept ↔ sparesPath s p parent name = true ∧
          permits s.identity b s.identity.vfsCurrentUser (permRead >>> 6) = true ∧
          (a.data ≠ none ∨ kept b) := fun kept => by simp [CutToFile, hlen, hm, hb]
      rw [hcut]
      cases hspares : sparesPath s p parent name with
      | false =>
        have hlost := not_moveKeeps_shadowed S hsrc hdest hsplit hdir hfound hne hspares hfresh
        simp [hlost]
      | true =>
        rw [moveKeeps_over S hsrc hdest hsplit hdir hfound hne rfl hb hfile hspares]
        simp

omit hdir hfound hne in
theorem moveKeeps_iff (hother : AbsentOrOther s q n) :
    MoveKeeps s src dest c ↔ Movable s p q n a c := by
  obtain ⟨found, hdir⟩ := findDirectory_total S.sound dir
  have hone : Movable s p q n a c ↔ ∀ parent, findDirectory s dir = .ok (some parent) →
      Alone s.nodes n ∧ ((q.length < 256 ∧ a.data ≠ none) ∨
        CutToFile s p q a parent name fun b =>
          contentOf (withoutFile (made s parent name) n s.blocks) b = some c) := by
    simp [Movable, hsplit]
  rw [hone, hdir]
  cases found with
  | none =>
    have hcall := mvCommand_notCreated S hsrc hdest hsplit hdir
    simp [MoveKeeps, hcall, hsrc, S.content]
  | some parent =>
    rw [moveKeeps_created S hsrc hdest hsplit hdir hother]
    simp

end Moved

end ZoraVM.Shell
