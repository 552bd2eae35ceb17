import ZoraVM.Shell.FileCommands
import ZoraVM.Vfs.AccessControl
import ZoraVM.Vfs.Paths

namespace ZoraVM.Shell

open Foundation Vfs

section Statements

variable (s : VfsState) (src dest c : Bytes)

def CopyKeeps : Prop :=
  ∃ report s', cpCommand s src dest = .ok (report, s') ∧
    (report = .copied → readBytes s' (fullPath s.currentDirectory dest) = some c) ∧
    readBytes s' (fullPath s.currentDirectory src) = some c

def MoveKeeps : Prop :=
  ∃ report s', mvCommand s src dest = .ok (report, s') ∧
    (report = .moved → readBytes s' (fullPath s.currentDirectory dest) = some c ∧
      vfsFindNode s' (fullPath s.currentDirectory src) = .ok none) ∧
    (report ≠ .moved → readBytes s' (fullPath s.currentDirectory src) = some c)

end Statements

section Conditions

variable (s : VfsState) (p q : Bytes) (n : Nat) (a : Attr) (c : Bytes)

def AbsentOrOther : Prop :=
  vfsFindNode s q = .ok none ∨ ∃ m b, vfsFindNode s q = .ok (some m) ∧ m ≠ n ∧
    Forest.valAt s.nodes m = some b ∧ b.isDirectory = false ∧ b.isSymlink = false

def made (parent : Nat) (name : Bytes) : VfsState := addNode s parent (vfsCreateFileNode s name)

def Alone (nodes : Forest Attr) (n : Nat) : Prop :=
  ∀ parent, Forest.parentOf nodes n = some parent → ∀ k ∈ Forest.childrenOf nodes parent,
    Forest.keyAt Attr.name nodes k = Forest.keyAt Attr.name nodes n → k = n

-- A path of 256 bytes or more is cut where it is looked up, but not where the file is made: the
-- bytes then go to the file that the cut path names.
def CutToFile (parent : Nat) (name : Bytes) (kept : Attr → Prop) : Prop :=
  256 ≤ q.length ∧ sparesPath s p parent name = true ∧
    ∃ m b, vfsFindNode s q = .ok (some m) ∧ Forest.valAt s.nodes m = some b ∧
      permits s.identity b s.identity.vfsCurrentUser (permRead >>> 6) = true ∧
      (a.data ≠ none ∨ kept b)

def Copyable : Prop :=
  ∃ dir name, splitPath q = .ok (dir, name) ∧ ∀ parent, findDirectory s dir = .ok (some parent) →
    (q.length < 256 ∧ a.data ≠ none) ∨
      CutToFile s p q a parent name fun b =>
        contentOf (made s parent name) a = some c ∧ contentOf (made s parent name) b = some c

def Movable : Prop :=
  ∃ dir name, splitPath q = .ok (dir, name) ∧ ∀ parent, findDirectory s dir = .ok (some parent) →
    Alone s.nodes n ∧ ((q.length < 256 ∧ a.data ≠ none) ∨
      CutToFile s p q a parent name fun b =>
        contentOf (withoutFile (made s parent name) n s.blocks) b = some c)

end Conditions

variable {s : VfsState} {p q dir name c r : Bytes} {n m parent : Nat} {a b e : Attr}

section Made

variable (hs : Sound s.nodes s.blocks s.root) (hp : IsDirectory s.nodes parent)

theorem made_eq (s : VfsState) (parent : Nat) (name : Bytes) :
    made s parent name =
      { s with
        nodes := Forest.link s.nodes parent (vfsCreateFileNode s name)
        host := addedHost s parent (vfsCreateFileNode s name) } := addNode_eq s parent _

theorem contentOf_made (hdata : e.data ≠ none) : contentOf (made s parent name) e = contentOf s e := by
  simp [contentOf, hdata, made_eq]

include hs in
theorem tree_made (hp : IsDirectory s.nodes parent) :
    Forest.WellFormed (made s parent name).nodes (made s parent name).root := by
  rw [made_eq]
  exact hs.tree.link hp.live _

include hp

theorem valAt_made (name : Bytes) (k : Nat) :
    Forest.valAt (made s parent name).nodes k =
      if k = s.nodes.size then some (vfsCreateFileNode s name) else Forest.valAt s.nodes k := by
  rw [made_eq]
  exact Forest.valAt_link hp.live _ k

theorem valAt_made_old (name : Bytes) {k : Nat} (hk : Forest.valAt s.nodes k = some e) :
    Forest.valAt (made s parent name).nodes k = some e := by
  have hlive := Forest.live_iff_valAt.mpr ⟨e, hk⟩
  rw [valAt_made hp, if_neg (Nat.ne_of_lt (Forest.live_lt_size hlive)), hk]

theorem readBytes_made {k : Nat} (hfind : vfsFindNode (made s parent name) r = .ok (some k))
    (he : Forest.valAt s.nodes k = some e) (hfile : e.isDirectory = false) :
    readBytes (made s parent name) r =
      if permits s.identity e s.identity.vfsCurrentUser (permRead >>> 6) = true then
        contentOf (made s parent name) e
      else none := by
  rw [readBytes_of_file hfind (valAt_made_old hp name he) hfile, made_eq]

theorem readBytes_made_new
    (hfind : vfsFindNode (made s parent name) r = .ok (some s.nodes.size)) :
    readBytes (made s parent name) r = none := by
  have hval : Forest.valAt (made s parent name).nodes s.nodes.size =
      some (vfsCreateFileNode s name) := by rw [valAt_made hp, if_pos rfl]
  have hempty : contentOf (made s parent name) (vfsCreateFileNode s name) = none := rfl
  rw [readBytes_of_file hfind hval rfl, hempty, ite_self]

include hs

theorem find_made (hname : name.length < 256) (hspares : sparesPath s r parent name = true) :
    vfsFindNode (made s parent name) r = vfsFindNode s r := by
  have hnode : (vfsCreateFileNode s name).name = name := clip_of_length_lt hname
  have hlive : (made s parent name).nodes.live (made s parent name).root = true :=
    (tree_made hs hp).root_live
  rw [vfsFindNode_of_live hlive, vfsFindNode_of_live hs.tree.root_live, made_eq]
  exact congrArg Except.ok (hs.tree.walk_link_of_not_asks hp.live
    (by simpa [sparesPath, hnode] using hspares))

theorem find_made_in (hname : name.length < 256) (hdir : findDirectory s dir = .ok (some parent))
    {shown : Bytes} (hr : pathComponents r = pathComponents dir ++ [shown]) :
    vfsFindNode (made s parent name) r =
      if name = shown then .ok (some s.nodes.size) else vfsFindNode s r := by
  have hnode : (vfsCreateFileNode s name).name = name := clip_of_length_lt hname
  have hlive : (made s parent name).nodes.live (made s parent name).root = true :=
    (tree_made hs hp).root_live
  obtain ⟨_, hwalk, _⟩ := findDirectory_ok_some hdir
  rw [vfsFindNode_of_live hlive, vfsFindNode_of_live hs.tree.root_live, made_eq, hr]
  simp only [Forest.walk_concat, hs.tree.walk_link hp.live hwalk, hwalk, Option.bind_some,
    Forest.childNamed_link hs.tree hp.live, hnode, true_and]
  split
  · rfl
  · rfl

theorem alone_made (hname : name.length < 256) (hn : Forest.valAt s.nodes n = some a)
    (hfind : vfsFindNode s r = .ok (some n)) (hspares : sparesPath s r parent name = true) :
    Alone (made s parent name).nodes n ↔ Alone s.nodes n := by
  have hlive := Forest.live_iff_valAt.mpr ⟨a, hn⟩
  have hold : n ≠ s.nodes.size := Nat.ne_of_lt (Forest.live_lt_size hlive)
  have hnode : (vfsCreateFileNode s name).name = name := clip_of_length_lt hname
  have hwalk := (vfsFindNode_ok hfind).2
  have hfresh : ∀ above, Forest.parentOf s.nodes n = some above → above = parent →
      Forest.keyAt Attr.name s.nodes n ≠ some name := by
    rintro above habove rfl hkey
    have hne : pathComponents r ≠ [] := by
      intro hnil
      rw [hnil] at hwalk
      obtain rfl := Option.some.inj hwalk
      rw [(hs.tree.rooted hs.tree.root_live).mpr rfl] at habove
      cases habove
    have hasks := hs.tree.asks_of_walk hwalk hne habove hkey
    simp [sparesPath, hasks] at hspares
  rw [made_eq]
  simp only [Alone, Forest.parentOf_link hp.live, if_neg hold, Forest.childrenOf_link hp.live,
    Forest.keyAt_link hp.live, hnode]
  refine forall_congr' fun above => forall_congr' fun habove => ?_
  have hkids : ∀ k ∈ Forest.childrenOf s.nodes above, k ≠ s.nodes.size := fun k hk =>
    Nat.ne_of_lt (Forest.live_lt_size (hs.tree.child_parent hk).1)
  by_cases hsame : above = parent
  · have hkey := hfresh above habove hsame
    subst hsame
    simp only [if_true, List.forall_mem_cons, ne_comm.mp hkey]
    constructor
    · intro h k hk
      simpa [hkids k hk] using h.2 k hk
    · intro h
      refine ⟨False.elim, fun k hk => ?_⟩
      simpa [hkids k hk] using h k hk
  · simp only [if_neg hsame]
    constructor
    · intro h k hk
      simpa [hkids k hk] using h k hk
    · intro h k hk
      simpa [hkids k hk] using h k hk

end Made

section Copied

variable {t : VfsState} {d k : Nat} {found : Option Nat}

def copiedTo (t : VfsState) (found : Option Nat) (a : Attr) (c : Bytes) : VfsState :=
  match found, a.data with
  | some d, some _ => storeData t d t.blocks (some c)
  | _, _ => t

theorem copiedTo_unloaded (hdata : a.data = none) : copiedTo t found a c = t := by
  unfold copiedTo
  cases found <;> simp [hdata]

theorem copiedTo_nowhere : copiedTo t none a c = t := rfl

theorem copiedTo_some (hdata : a.data ≠ none) :
    copiedTo t (some d) a c = storeData t d t.blocks (some c) := by
  obtain ⟨pa, hpa⟩ := Option.ne_none_iff_exists'.mp hdata
  simp [copiedTo, hpa]

theorem copyNodeData_eq (ha : Forest.valAt t.nodes n = some a)
    (hstored : ∀ pa, a.data = some pa →
      ∃ blk, t.blocks.get pa = some blk ∧ a.size ≤ blk.length ∧ blk.take a.size = c)
    (hne : found ≠ some n) : copyNodeData t n found = .ok (copiedTo t found a c) := by
  cases found with
  | none => simp [copyNodeData, nodeAt_of_valAt ha, bind, Except.bind, copiedTo]
  | some d =>
    cases hdata : a.data with
    | none => simp [copyNodeData, nodeAt_of_valAt ha, hdata, bind, Except.bind, copiedTo]
    | some pa =>
      obtain ⟨blk, hblk, hlen, hbytes⟩ := hstored pa hdata
      have hd : d ≠ n := fun he => hne (he ▸ rfl)
      simp [copyNodeData, nodeAt_of_valAt ha, hdata, hd, readBuffer, hblk, hlen, hbytes, bind,
        Except.bind, copiedTo]

theorem find_storeData (t : VfsState) (d : Nat) (blocks : Heap Bytes) (content : Option Bytes) :
    vfsFindNode (storeData t d blocks content) r = vfsFindNode t r := by
  have hroot : (storeData t d blocks content).root = t.root := by cases content <;> rfl
  simp only [vfsFindNode, hroot, nodes_storeData, Forest.live_update]
  rw [Forest.walk_update (name_withData _ _)]

theorem readBytes_storeData_self (hfind : vfsFindNode t r = .ok (some d))
    (he : Forest.valAt t.nodes d = some e) (hfile : e.isDirectory = false) :
    readBytes (storeData t d t.blocks (some c)) r =
      if permits t.identity e t.identity.vfsCurrentUser (permRead >>> 6) = true then some c
      else none := by
  have hval : Forest.valAt (storeData t d t.blocks (some c)).nodes d =
      some (withData ((some c).map fun _ => t.blocks.size) (((some c).map List.length).getD 0) e) :=
    valAt_storeData he (some c)
  have hfind' : vfsFindNode (storeData t d t.blocks (some c)) r = .ok (some d) := by
    rw [find_storeData, hfind]
  have hcontent : contentOf (storeData t d t.blocks (some c))
      (withData ((some c).map fun _ => t.blocks.size) (((some c).map List.length).getD 0) e) =
        some c := by simp [contentOf, withData, bytesAt, storeData, updateNode]
  rw [readBytes_of_file hfind' hval hfile, hcontent]
  rfl

theorem readBytes_storeData_of_ne (hfind : vfsFindNode t r = .ok (some k)) (hk : k ≠ d)
    (he : Forest.valAt t.nodes k = some e) (hfile : e.isDirectory = false)
    (hblock : ∀ pe, e.data = some pe → pe < t.blocks.size) :
    readBytes (storeData t d t.blocks (some c)) r = readBytes t r := by
  have hval : Forest.valAt (storeData t d t.blocks (some c)).nodes k = some e := by
    rw [nodes_storeData, Forest.valAt_update_of_ne _ hk, he]
  have hfind' : vfsFindNode (storeData t d t.blocks (some c)) r = .ok (some k) := by
    rw [find_storeData, hfind]
  have hcontent : contentOf (storeData t d t.blocks (some c)) e = contentOf t e := by
    unfold contentOf
    cases hdata : e.data with
    | none => rfl
    | some pe =>
      have hne := Nat.ne_of_lt (hblock pe hdata)
      simp [bytesAt, storeData, updateNode, Heap.get_alloc_of_ne hne]
  rw [readBytes_of_file hfind' hval hfile, readBytes_of_file hfind he hfile, hcontent]
  rfl

end Copied

section Removed

variable {t : VfsState} {k : Nat} (blocks : Heap Bytes)

theorem vfsDeleteFile_eq (hfind : vfsFindNode t r = .ok (some n))
    (ha : Forest.valAt t.nodes n = some a) (hfile : a.isDirectory = false)
    {blocks : Heap Bytes} (hfree : freeData t.blocks a.data = .ok blocks) :
    vfsDeleteFile t r = .ok (0, withoutFile t n blocks) := by
  simp [vfsDeleteFile, hfind, nodeAt_of_valAt ha, hfile, hfree, bind, Except.bind, withoutFile]

theorem vfsDeleteFile_absent (hfind : vfsFindNode t r = .ok none) :
    vfsDeleteFile t r = .ok (-1, t) := by
  simp [vfsDeleteFile, hfind, bind, Except.bind]

variable (htree : Forest.WellFormed t.nodes t.root) (hleaf : Forest.childrenOf t.nodes n = [])
  (hroot : n ≠ t.root)

include htree hleaf hroot

theorem find_withoutFile (hfind : vfsFindNode t r = .ok (some k)) (hk : k ≠ n) :
    vfsFindNode (withoutFile t n blocks) r = .ok (some k) := by
  have hlive : (withoutFile t n blocks).nodes.live (withoutFile t n blocks).root = true :=
    Forest.live_unlink.mpr ⟨hroot.symm, htree.root_live⟩
  rw [vfsFindNode_of_live hlive]
  exact congrArg Except.ok (htree.walk_unlink hleaf (vfsFindNode_ok hfind).2 hk)

theorem find_withoutFile_self (hfind : vfsFindNode t r = .ok (some n)) :
    vfsFindNode (withoutFile t n blocks) r = .ok none ↔ Alone t.nodes n := by
  have hlive : (withoutFile t n blocks).nodes.live (withoutFile t n blocks).root = true :=
    Forest.live_unlink.mpr ⟨hroot.symm, htree.root_live⟩
  obtain ⟨_, hwalk⟩ := vfsFindNode_ok hfind
  have hn := htree.live_walk htree.root_live hwalk
  obtain ⟨above, habove⟩ : ∃ above, Forest.parentOf t.nodes n = some above := by
    refine Option.ne_none_iff_exists'.mp fun hnone => hroot ((htree.rooted hn).mp hnone)
  have hgone := htree.walk_unlink_self hleaf hwalk habove
  rw [vfsFindNode_of_live hlive, Except.ok.injEq]
  refine hgone.trans ?_
  simp [Alone, habove]

theorem find_withoutFile_none (hparent : parent ≠ n)
    (hwalk : Forest.walk Attr.name t.nodes t.root (pathComponents dir) = some parent)
    {shown : Bytes} (hr : pathComponents r = pathComponents dir ++ [shown])
    (hfind : vfsFindNode t r = .ok none) : vfsFindNode (withoutFile t n blocks) r = .ok none := by
  have hlive : (withoutFile t n blocks).nodes.live (withoutFile t n blocks).root = true :=
    Forest.live_unlink.mpr ⟨hroot.symm, htree.root_live⟩
  have hchild : Forest.childNamed Attr.name t.nodes parent shown = none := by
    have hnone := (vfsFindNode_ok hfind).2
    rwa [hr, Forest.walk_concat, hwalk] at hnone
  have hkept := htree.walk_unlink hleaf hwalk hparent
  have hstill : Forest.childNamed Attr.name (Forest.unlink t.nodes n) parent shown = none := by
    rw [Forest.childNamed_unlink htree hparent (by rw [hchild]; exact (Option.some_ne_none n).symm),
      hchild]
  rw [vfsFindNode_of_live hlive, hr, Forest.walk_concat]
  exact congrArg Except.ok ((congrArg (Option.bind · _) hkept).trans hstill)

theorem readBytes_withoutFile (hfind : vfsFindNode t r = .ok (some k)) (hk : k ≠ n)
    (he : Forest.valAt t.nodes k = some e) (hfile : e.isDirectory = false) :
    readBytes (withoutFile t n blocks) r =
      if permits t.identity e t.identity.vfsCurrentUser (permRead >>> 6) = true then
        contentOf (withoutFile t n blocks) e
      else none := by
  have hfind' := find_withoutFile blocks htree hleaf hroot hfind hk
  have hval : Forest.valAt (withoutFile t n blocks).nodes k = some e := by
    rw [withoutFile, Forest.valAt_unlink, if_neg hk, he]
  exact readBytes_of_file hfind' hval hfile

end Removed

section Source

structure Source (s : VfsState) (p : Bytes) (n : Nat) (a : Attr) (c : Bytes) : Prop where
  sound : Sound s.nodes s.blocks s.root
  find : vfsFindNode s p = .ok (some n)
  node : Forest.valAt s.nodes n = some a
  file : a.isDirectory = false
  readable : permits s.identity a s.identity.vfsCurrentUser (permRead >>> 6) = true
  content : readBytes s p = some c

namespace Source

variable (S : Source s p n a c)

include S

theorem contentOf_eq : contentOf s a = some c := by
  rw [← S.content, readBytes_of_file S.find S.node S.file, if_pos S.readable]

theorem stored {pa : Nat} (hdata : a.data = some pa) :
    ∃ blk, s.blocks.get pa = some blk ∧ a.size ≤ blk.length ∧ blk.take a.size = c := by
  obtain ⟨blk, hblk, hlen⟩ := S.sound.stored S.node hdata
  refine ⟨blk, hblk, hlen, ?_⟩
  simpa [contentOf, hdata, bytesAt, hblk] using S.contentOf_eq

theorem ne_root : n ≠ s.root := by
  rintro rfl
  exact Bool.false_ne_true (S.file.symm.trans (S.sound.root_directory S.node))

theorem ne_fresh : n ≠ s.nodes.size :=
  Nat.ne_of_lt (Forest.live_lt_size (Forest.live_iff_valAt.mpr ⟨a, S.node⟩))

variable (hp : IsDirectory s.nodes parent)

include hp

theorem destination (hother : AbsentOrOther s q n) (hsplit : splitPath q = .ok (dir, name))
    (hdir : findDirectory s dir = .ok (some parent)) :
    (q.length < 256 ∧ vfsFindNode (made s parent name) q = .ok (some s.nodes.size) ∧
        sparesPath s p parent name = true) ∨
      (256 ≤ q.length ∧ vfsFindNode (made s parent name) q = vfsFindNode s q ∧
        ∃ shown, pathComponents q = pathComponents dir ++ [shown]) := by
  obtain ⟨_, hwalk, d, hd, hisdir⟩ := findDirectory_ok_some hdir
  have hlive := S.sound.tree.root_live
  have hname := name_of_split hsplit
  rcases pathComponents_split hsplit with ⟨shown, hshown, hq, hcut⟩ | hq
  · have hfind := find_made_in S.sound hp hname hdir hq
    by_cases hlen : q.length < 256
    · have hsame := hcut.mpr hlen
      rw [if_pos hsame.symm] at hfind
      refine .inl ⟨hlen, hfind, ?_⟩
      by_contra hasks
      have hasks' : Forest.asks Attr.name s.nodes parent name s.root (pathComponents p) = true := by
        simpa [sparesPath] using hasks
      obtain ⟨_, hsource⟩ := vfsFindNode_ok S.find
      obtain ⟨k, hk⟩ := Forest.childNamed_of_asks hsource hasks'
      have hfound : vfsFindNode s q = .ok (some k) := by
        rw [vfsFindNode_of_live hlive, hq, hsame, Forest.walk_concat, hwalk, Option.bind_some, hk]
      rcases hother with hnone | ⟨m, b, hm, hmn, hb, hfile, _⟩
      · rw [hfound] at hnone
        cases hnone
      · rw [hfound] at hm
        obtain rfl := Option.some.inj (Except.ok.inj hm)
        exact hmn (Forest.eq_of_asks_leaf hsource hasks' hk (S.sound.leaves hb hfile))
    · have hdiff : name ≠ shown := fun he => hlen (hcut.mp he.symm)
      rw [if_neg hdiff] at hfind
      exact .inr ⟨Nat.le_of_not_lt hlen, hfind, shown, hq⟩
  · have hfound : vfsFindNode s q = .ok (some parent) := by
      rw [vfsFindNode_of_live hlive, hq, hwalk]
    rcases hother with hnone | ⟨m, b, hm, _, hb, hfile, _⟩
    · rw [hfound] at hnone
      cases hnone
    · rw [hfound] at hm
      obtain rfl := Option.some.inj (Except.ok.inj hm)
      obtain rfl := Option.some.inj (hd.symm.trans hb)
      exact absurd (hfile.symm.trans hisdir) Bool.false_ne_true

theorem shadowed (hname : name.length < 256) (hspares : sparesPath s p parent name = false) :
    vfsFindNode (made s parent name) p = .ok none ∨
      (vfsFindNode (made s parent name) p = .ok (some s.nodes.size) ∧
        Forest.childNamed Attr.name s.nodes parent name = some n) := by
  have hnode : (vfsCreateFileNode s name).name = name := clip_of_length_lt hname
  have hlive : (made s parent name).nodes.live (made s parent name).root = true :=
    (tree_made S.sound hp).root_live
  have hasks : Forest.asks Attr.name s.nodes parent (vfsCreateFileNode s name).name s.root
      (pathComponents p) = true := by
    rw [hnode]
    simpa [sparesPath] using hspares
  rw [vfsFindNode_of_live hlive, made_eq]
  rcases S.sound.tree.walk_link_of_asks hp.live (vfsFindNode_ok S.find).2 hasks with hw | ⟨hw, hn⟩
  · exact .inl (congrArg Except.ok hw)
  · exact .inr ⟨congrArg Except.ok hw, hnode ▸ hn⟩

end Source

end Source

end ZoraVM.Shell
