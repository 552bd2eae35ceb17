import ZoraVM.Vfs.Soundness
import ZoraVM.Vfs.Sync

namespace ZoraVM.Vfs

open Foundation

inductive Sight where
  | directory
  | file (size : Nat) (content : Bytes) (modifiedTime : Nat)
  deriving DecidableEq, Repr

def sightOf (s : VfsState) (a : Attr) : Sight :=
  if a.isDirectory then .directory else .file a.size (nodeContent s a) a.modifiedTime

-- The node a path leads to from the root, and what there is to see of it.
def seen (s : VfsState) (path : List Bytes) : Option (Nat × Sight) :=
  (Forest.walk Attr.name s.nodes s.root path).bind fun n =>
    (Forest.valAt s.nodes n).map fun a => (n, sightOf s a)

structure Orderly (s : VfsState) : Prop where
  sound : Sound s.nodes s.blocks s.root
  distinct : Forest.SiblingsDistinct Attr.name s.nodes

structure Settled (s s' : VfsState) : Prop where
  orderly : Orderly s'
  root : s'.root = s.root
  host : s'.host = s.host
  clock : s'.clock = s.clock

theorem Orderly.settled {s : VfsState} (h : Orderly s) : Settled s s := ⟨h, rfl, rfl, rfl⟩

theorem Settled.trans {s t u : VfsState} (h : Settled s t) (h' : Settled t u) : Settled s u :=
  ⟨h'.orderly, h'.root.trans h.root, h'.host.trans h.host, h'.clock.trans h.clock⟩

section Basics

variable {s s' : VfsState} {path names : List Bytes} {n c : Nat} {a v : Attr} {x : Sight}
  {f : Attr → Attr} {blocks : Heap Bytes}

theorem seen_eq_some : seen s path = some (n, x) ↔
    Forest.walk Attr.name s.nodes s.root path = some n ∧
      ∃ a, Forest.valAt s.nodes n = some a ∧ sightOf s a = x := by
  rw [seen, Option.bind_eq_some_iff]
  constructor
  · rintro ⟨m, hw, hm⟩
    obtain ⟨a, ha, heq⟩ := Option.map_eq_some_iff.mp hm
    obtain ⟨rfl, rfl⟩ := Prod.mk.inj heq
    exact ⟨hw, a, ha, rfl⟩
  · rintro ⟨hw, a, ha, rfl⟩
    exact ⟨n, hw, by rw [ha]; rfl⟩

theorem Orderly.valAt_walk (h : Orderly s)
    (hw : Forest.walk Attr.name s.nodes s.root path = some n) :
    ∃ a, Forest.valAt s.nodes n = some a :=
  Forest.live_iff_valAt.mp (h.sound.tree.live_walk h.sound.tree.root_live hw)

theorem Orderly.seen_eq_none (h : Orderly s) :
    seen s path = none ↔ Forest.walk Attr.name s.nodes s.root path = none := by
  constructor
  · intro hnone
    by_contra hsome
    obtain ⟨n, hw⟩ := Option.ne_none_iff_exists'.mp hsome
    obtain ⟨a, ha⟩ := h.valAt_walk hw
    rw [seen, hw, Option.bind_some, ha] at hnone
    cases hnone
  · intro hw
    rw [seen, hw]
    rfl

theorem sightOf_congr (hblocks : ∀ p, a.data = some p → s'.blocks.get p = s.blocks.get p) :
    sightOf s' a = sightOf s a := by
  have hcontent : nodeContent s' a = nodeContent s a := by
    unfold nodeContent
    cases hd : a.data with
    | none => rfl
    | some p =>
      dsimp only
      rw [hblocks p hd]
  rw [sightOf, sightOf, hcontent]

theorem seen_child (hn : Forest.walk Attr.name s.nodes s.root path = some n) (name : Bytes) :
    Forest.walk Attr.name s.nodes s.root (path ++ [name]) =
      Forest.childNamed Attr.name s.nodes n name := by
  rw [Forest.walk_concat, hn, Option.bind_some]

structure Overwrites (s : VfsState) (path : List Bytes) (x : Option (Nat × Sight)) (s' : VfsState) :
    Prop where
  settled : Settled s s'
  here : seen s' path = x
  elsewhere : ∀ names, names ≠ path → seen s' names = seen s names

theorem Overwrites.trans {t : VfsState} {y z : Option (Nat × Sight)} (h : Overwrites s path y t)
    (h' : Overwrites t path z s') : Overwrites s path z s' :=
  ⟨h.settled.trans h'.settled, h'.here,
    fun names hne => (h'.elsewhere names hne).trans (h.elsewhere names hne)⟩

theorem overwrites_addChild (h : Orderly s) (hn : seen s path = some (n, .directory))
    (hfree : seen s (path ++ [v.name]) = none) (hv : v.data = none) :
    Overwrites s (path ++ [v.name]) (some (s.nodes.size, sightOf s v)) (vfsAddChild s n v) := by
  obtain ⟨hw, b, hb, hdir⟩ := seen_eq_some.mp hn
  have hisdir : b.isDirectory = true := by
    by_contra hfile
    rw [sightOf, if_neg hfile] at hdir
    cases hdir
  have hlive : s.nodes.live n = true := Forest.live_iff_valAt.mpr ⟨b, hb⟩
  rw [h.seen_eq_none, seen_child hw] at hfree
  have hwalk := h.sound.tree.walk_link_eq hlive hw hfree
  refine ⟨⟨⟨h.sound.link ⟨b, hb, hisdir⟩ hv, h.distinct.link h.sound.tree hlive hfree⟩,
    rfl, rfl, rfl⟩, ?_, fun names hne => ?_⟩
  · rw [seen, vfsAddChild, hwalk, if_pos rfl, Option.bind_some, Forest.valAt_link hlive, if_pos rfl]
    rfl
  · rw [seen, vfsAddChild, hwalk, if_neg hne, seen]
    cases hm : Forest.walk Attr.name s.nodes s.root names with
    | none => rfl
    | some m =>
      have hmlive := h.sound.tree.live_walk h.sound.tree.root_live hm
      rw [Option.bind_some, Option.bind_some, Forest.valAt_link_of_live hlive v hmlive]
      rfl

theorem overwrites_update (h : Orderly s) (hc : Forest.walk Attr.name s.nodes s.root path = some c)
    (ha : Forest.valAt s.nodes c = some a) (f : Attr → Attr) (hf : ∀ b, (f b).name = b.name)
    (hsound : Sound (Forest.update s.nodes c f) blocks s.root)
    (hkeep : ∀ m b p, m ≠ c → Forest.valAt s.nodes m = some b → b.data = some p →
      blocks.get p = s.blocks.get p) :
    Overwrites s path (some (c, sightOf { updateNode s c f with blocks := blocks } (f a)))
      { updateNode s c f with blocks := blocks } := by
  have hwalk : ∀ names, Forest.walk Attr.name (updateNode s c f).nodes s.root names =
      Forest.walk Attr.name s.nodes s.root names := Forest.walk_update hf s.root
  have hseen : ∀ names, seen { updateNode s c f with blocks := blocks } names =
      (Forest.walk Attr.name (updateNode s c f).nodes s.root names).bind fun n =>
        (Forest.valAt (updateNode s c f).nodes n).map fun a =>
          (n, sightOf { updateNode s c f with blocks := blocks } a) := fun _ => rfl
  refine ⟨⟨⟨hsound, h.distinct.update hf c⟩, rfl, rfl, rfl⟩, ?_, fun names hne => ?_⟩
  · have hval : Forest.valAt (updateNode s c f).nodes c = some (f a) := by
      rw [updateNode, Forest.valAt_update_self, ha]
      rfl
    rw [hseen, hwalk, hc, Option.bind_some, hval]
    rfl
  · rw [hseen, hwalk, seen]
    cases hm : Forest.walk Attr.name s.nodes s.root names with
    | none => rfl
    | some m =>
      have hmc : m ≠ c := by
        rintro rfl
        exact hne (h.sound.tree.walk_unique hm hc)
      have hval : Forest.valAt (updateNode s c f).nodes m = Forest.valAt s.nodes m :=
        Forest.valAt_update_of_ne f hmc
      obtain ⟨b, hb⟩ := h.valAt_walk hm
      have hsame : sightOf { updateNode s c f with blocks := blocks } b = sightOf s b :=
        sightOf_congr fun p hp => hkeep m b p hmc hb hp
      rw [Option.bind_some, Option.bind_some, hval, hb, Option.map_some, Option.map_some, hsame]

theorem overwrites_unlink (h : Orderly s)
    (hc : Forest.walk Attr.name s.nodes s.root path = some c)
    (hleaf : Forest.childrenOf s.nodes c = []) (hroot : c ≠ s.root)
    (hkeep : ∀ m b p, m ≠ c → Forest.valAt s.nodes m = some b → b.data = some p →
      blocks.get p = s.blocks.get p) :
    Overwrites s path none { s with nodes := Forest.unlink s.nodes c, blocks := blocks } := by
  have hwalk := h.sound.tree.walk_unlink_eq h.distinct hleaf hroot hc
  refine ⟨⟨⟨h.sound.unlink hleaf hroot fun {m b p} => hkeep m b p,
    h.distinct.unlink h.sound.tree c⟩, rfl, rfl, rfl⟩, ?_, fun names hne => ?_⟩
  · rw [seen, hwalk, if_pos rfl]
    rfl
  · rw [seen, hwalk, if_neg hne, seen]
    cases hm : Forest.walk Attr.name s.nodes s.root names with
    | none => rfl
    | some m =>
      have hmc : m ≠ c := by
        rintro rfl
        exact hne (h.sound.tree.walk_unique hm hc)
      obtain ⟨b, hb⟩ := h.valAt_walk hm
      have hsame : sightOf { s with nodes := Forest.unlink s.nodes c, blocks := blocks } b =
          sightOf s b := sightOf_congr fun p hp => hkeep m b p hmc hb hp
      rw [Option.bind_some, Option.bind_some, Forest.valAt_unlink, if_neg hmc, hb, Option.map_some,
        Option.map_some, hsame]

end Basics

-- What fread brings in of a file.
def loadedBytes (content : Bytes) : Bytes := if 0 < ftellSize content then content else []

section Files

variable {s s' : VfsState} {path names : List Bytes} {n c : Nat} {a : Attr}
  {content fullPath name : Bytes} {size time : Nat}

theorem file_of_sight (h : sightOf s a = .file size content time) :
    a.isDirectory = false ∧ a.size = size ∧ nodeContent s a = content ∧ a.modifiedTime = time := by
  unfold sightOf at h
  split at h
  · cases h
  · next hfile =>
    obtain ⟨rfl, rfl, rfl⟩ := Sight.file.inj h
    exact ⟨Bool.not_eq_true _ ▸ hfile, rfl, rfl, rfl⟩

theorem sightOf_file (hfile : a.isDirectory = false) :
    sightOf s a = .file a.size (nodeContent s a) a.modifiedTime := by
  rw [sightOf, hfile, if_neg Bool.false_ne_true]

theorem overwrites_touched (h : Orderly s) (hc : seen s path = some (c, .file size content time))
    (clock : Nat) :
    Overwrites s path (some (c, .file size content clock)) (updateNode s c (touched clock)) := by
  obtain ⟨hw, a, ha, hsight⟩ := seen_eq_some.mp hc
  obtain ⟨hfile, rfl, rfl, rfl⟩ := file_of_sight hsight
  have hsame : sightOf (updateNode s c (touched clock)) (touched clock a) =
      .file a.size (nodeContent s a) clock := sightOf_file hfile
  rw [← hsame]
  exact overwrites_update h hw ha (touched clock) (fun _ => rfl)
    (h.sound.update_attr ha rfl rfl rfl) fun _ _ _ _ _ _ => rfl

theorem nodeContent_stored {blocks : Heap Bytes} (hblocks : s.blocks = blocks.alloc content)
    (hdata : a.data = some blocks.size) (hsize : a.size = content.length) :
    nodeContent s a = content := by
  rw [nodeContent, hdata, hblocks]
  dsimp only
  rw [Heap.get_alloc_self, hsize, Option.getD_some, List.take_length]

theorem overwrites_readInto (h : Orderly s)
    (hw : Forest.walk Attr.name s.nodes s.root path = some c)
    (ha : Forest.valAt s.nodes c = some a) (hfile : a.isDirectory = false) (hnone : a.data = none)
    (hopen : s.host.openRead fullPath = some content) :
    Overwrites s path
      (some (c, .file (loadedBytes content).length (loadedBytes content) a.modifiedTime))
      (readInto s c fullPath) := by
  rw [readInto, hopen]
  dsimp only
  split
  · next hsize =>
    have hloaded : loadedBytes content = content := if_pos hsize
    have hfree : freeData s.blocks a.data = .ok s.blocks := by
      rw [hnone]
      rfl
    have hstored := overwrites_update h hw ha (withData (some s.blocks.size) content.length)
      (fun _ => rfl) (h.sound.store ha hfree (Nat.le_refl content.length)) fun m b p _ hb hp =>
        Heap.get_alloc_of_ne (Nat.ne_of_lt (h.sound.lt_size hb hp))
    have hstill : (withData (some s.blocks.size) content.length a).isDirectory = false := hfile
    rw [sightOf_file hstill, nodeContent_stored rfl rfl rfl] at hstored
    rw [hloaded]
    exact hstored
  · next hsize =>
    have hloaded : loadedBytes content = [] := if_neg hsize
    have hdata : (withSize 0 a).data = none := hnone
    have hstill : (withSize 0 a).isDirectory = false := hfile
    have hsound : Sound (Forest.update s.nodes c (withSize 0)) s.blocks s.root := by
      refine h.sound.update ha rfl (fun hp => ?_) fun _ _ _ => ⟨fun hp => ?_, rfl⟩
      · rw [hdata] at hp
        cases hp
      · rw [hdata] at hp
        cases hp
    have hsight : sightOf (updateNode s c (withSize 0)) (withSize 0 a) =
        .file 0 [] a.modifiedTime := by
      have hempty : nodeContent (updateNode s c (withSize 0)) (withSize 0 a) = [] := by
        rw [nodeContent, hdata]
      rw [sightOf_file hstill, hempty]
      rfl
    rw [hloaded, List.length_nil, ← hsight]
    exact overwrites_update h hw ha (withSize 0) (fun _ => rfl) hsound fun _ _ _ _ _ _ => rfl

theorem overwrites_newFile (h : Orderly s) (hn : seen s path = some (n, .directory))
    (hname : clip 256 name = name) (hfree : seen s (path ++ [name]) = none)
    (hopen : s.host.openRead fullPath = some content) :
    Overwrites s (path ++ [name])
      (some (s.nodes.size, .file (loadedBytes content).length (loadedBytes content) s.clock))
      (syncNewFile s n name fullPath) := by
  have hnode : (vfsCreateFileNode s name).name = name := hname
  have hadd : Overwrites s (path ++ [name])
      (some (s.nodes.size, sightOf s (vfsCreateFileNode s name)))
      (vfsAddChild s n (vfsCreateFileNode s name)) := by
    have hadded := overwrites_addChild (v := vfsCreateFileNode s name) h hn (hnode.symm ▸ hfree) rfl
    rwa [hnode] at hadded
  obtain ⟨hw, a, ha, hsight⟩ := seen_eq_some.mp hadd.here
  have hfresh : a = vfsCreateFileNode s name := by
    have hval : Forest.valAt (vfsAddChild s n (vfsCreateFileNode s name)).nodes s.nodes.size =
        some (vfsCreateFileNode s name) := by
      obtain ⟨_, b, hb, _⟩ := seen_eq_some.mp hn
      rw [vfsAddChild, Forest.valAt_link (Forest.live_iff_valAt.mpr ⟨b, hb⟩), if_pos rfl]
    exact Option.some.inj (ha.symm.trans hval)
  subst hfresh
  have hread := overwrites_readInto hadd.settled.orderly hw ha rfl rfl hopen
  have htouch := overwrites_touched hread.settled.orderly hread.here s.clock
  exact hadd.trans (hread.trans htouch)

theorem overwrites_freed (h : Orderly s) (hw : Forest.walk Attr.name s.nodes s.root path = some c)
    (ha : Forest.valAt s.nodes c = some a) {blocks : Heap Bytes}
    (hfree : freeData s.blocks a.data = .ok blocks) :
    Overwrites s path (some (c, sightOf { updateNode s c withoutData with blocks := blocks }
      (withoutData a))) { updateNode s c withoutData with blocks := blocks } := by
  have hkeep : ∀ m b p, m ≠ c → Forest.valAt s.nodes m = some b → b.data = some p →
      blocks.get p = s.blocks.get p := fun m b p hm hb hp => h.sound.freed_keeps ha hfree hm hb hp
  refine overwrites_update h hw ha withoutData (fun _ => rfl) ?_ hkeep
  refine h.sound.update ha rfl (fun hp => ?_) fun {m b p} hm hb hp => ⟨fun hp' => ?_, hkeep m b p hm hb hp⟩
  · cases hp
  · cases hp'

theorem overwrites_existingFile {writeTime : Location → BitVec 64} (h : Orderly s)
    (hc : seen s path = some (c, .file size content time)) {fresh : Bytes}
    (hopen : s.host.openRead fullPath = some fresh)
    (hnewer : time < timeOfFileTime (writeTime (Location.resolve fullPath))) :
    ∃ s', syncExistingFile s writeTime c fullPath = .ok s' ∧
      Overwrites s path (some (c, .file (loadedBytes fresh).length (loadedBytes fresh)
        (timeOfFileTime (writeTime (Location.resolve fullPath))))) s' := by
  obtain ⟨hw, a, ha, hsight⟩ := seen_eq_some.mp hc
  obtain ⟨hfile, _, _, rfl⟩ := file_of_sight hsight
  have hfound := overwrites_touched h hc s.clock
  have haf : Forest.valAt (updateNode s c (touched s.clock)).nodes c = some (touched s.clock a) := by
    rw [updateNode, Forest.valAt_update_self, ha]
    rfl
  have hwf := (seen_eq_some.mp hfound.here).1
  obtain ⟨blocks, hfree⟩ := h.sound.freeData_ok ha
  have hfreed := overwrites_freed hfound.settled.orderly hwf haf hfree
  obtain ⟨hwr, b, hb, _⟩ := seen_eq_some.mp hfreed.here
  have hb' : b = withoutData (touched s.clock a) := by
    have hval : Forest.valAt (updateNode (updateNode s c (touched s.clock)) c withoutData).nodes c =
        some (withoutData (touched s.clock a)) := by
      rw [updateNode, Forest.valAt_update_self, haf]
      rfl
    exact Option.some.inj (hb.symm.trans hval)
  subst hb'
  have hread := overwrites_readInto hfreed.settled.orderly hwr hb hfile rfl hopen
  have htouch := overwrites_touched hread.settled.orderly hread.here
    (timeOfFileTime (writeTime (Location.resolve fullPath)))
  refine ⟨_, ?_, hfound.trans (hfreed.trans (hread.trans htouch))⟩
  have hguard : ((s.host.openRead fullPath).isSome &&
      decide (a.modifiedTime < timeOfFileTime (writeTime (Location.resolve fullPath)))) = true := by
    rw [hopen, decide_eq_true hnewer]
    rfl
  rw [syncExistingFile, nodeAt_of_valAt ha]
  dsimp only [bind, Except.bind]
  rw [if_pos hguard, hfree]

end Files

def Sight.marked : Sight → Sight
  | .directory => .directory
  | .file size content _ => .file size content 0

def Sight.isMissing : Sight → Bool
  | .directory => false
  | .file _ _ time => time == 0

section Children

variable {s s' : VfsState} {path names : List Bytes} {n c : Nat} {a : Attr}

theorem Orderly.path_of_child (h : Orderly s)
    (hw : Forest.walk Attr.name s.nodes s.root path = some n)
    (hc : c ∈ Forest.childrenOf s.nodes n) :
    ∃ name, Forest.walk Attr.name s.nodes s.root (path ++ [name]) = some c := by
  obtain ⟨a, ha⟩ := Forest.live_iff_valAt.mp (h.sound.tree.child_parent hc).1
  have hkey : Forest.keyAt Attr.name s.nodes c = some a.name := by
    obtain ⟨cell, hcell, rfl⟩ := Option.map_eq_some_iff.mp ha
    rw [Forest.keyAt, hcell]
    rfl
  refine ⟨a.name, ?_⟩
  rw [seen_child hw]
  cases hd : Forest.childNamed Attr.name s.nodes n a.name with
  | none => exact absurd hkey (Forest.childNamed_eq_none.mp hd c hc)
  | some d =>
    obtain ⟨hmem, hkey'⟩ := Forest.childNamed_eq_some hd
    rw [h.distinct.eq_of_key hmem hc (hkey'.trans hkey.symm)]

theorem child_of_path (hw : Forest.walk Attr.name s.nodes s.root path = some n) {name : Bytes}
    (hc : Forest.walk Attr.name s.nodes s.root (path ++ [name]) = some c) :
    c ∈ Forest.childrenOf s.nodes n := by
  rw [seen_child hw] at hc
  exact (Forest.childNamed_eq_some hc).1

theorem sightOf_marked (s : VfsState) (a : Attr) :
    sightOf s (markedMissing a) = (sightOf s a).marked := by
  cases hdir : a.isDirectory with
  | true => simp [sightOf, markedMissing, hdir, Sight.marked]
  | false => simp [sightOf, markedMissing, hdir, Sight.marked, nodeContent]

theorem overwrites_marked (h : Orderly s)
    (hw : Forest.walk Attr.name s.nodes s.root path = some c)
    (ha : Forest.valAt s.nodes c = some a) :
    Overwrites s path (some (c, (sightOf s a).marked)) (updateNode s c markedMissing) := by
  have hsame : sightOf (updateNode s c markedMissing) (markedMissing a) = (sightOf s a).marked :=
    sightOf_marked s a
  rw [← hsame]
  have hfields : ∀ b, (markedMissing b).name = b.name ∧
      (markedMissing b).isDirectory = b.isDirectory ∧ (markedMissing b).data = b.data ∧
      (markedMissing b).size = b.size := by
    intro b
    unfold markedMissing
    split
    · exact ⟨rfl, rfl, rfl, rfl⟩
    · exact ⟨rfl, rfl, rfl, rfl⟩
  obtain ⟨_, hdir, hdata, hsize⟩ := hfields a
  exact overwrites_update h hw ha markedMissing (fun b => (hfields b).1)
    (h.sound.update_attr ha hdir hdata hsize) fun _ _ _ _ _ _ => rfl

structure NodesRewritten (s : VfsState) (cs : List Nat)
    (F : Option (Nat × Sight) → Option (Nat × Sight)) (s' : VfsState) : Prop where
  settled : Settled s s'
  inside : ∀ c ∈ cs, ∀ names, Forest.walk Attr.name s.nodes s.root names = some c →
    seen s' names = F (seen s names)
  outside : ∀ names, (∀ c ∈ cs, Forest.walk Attr.name s.nodes s.root names ≠ some c) →
    seen s' names = seen s names

structure ChildrenRewritten (s : VfsState) (path : List Bytes)
    (F : Option (Nat × Sight) → Option (Nat × Sight)) (s' : VfsState) : Prop where
  settled : Settled s s'
  child : ∀ name, seen s' (path ++ [name]) = F (seen s (path ++ [name]))
  other : ∀ names, (∀ name, names ≠ path ++ [name]) → seen s' names = seen s names

variable {F : Option (Nat × Sight) → Option (Nat × Sight)} {t t' : VfsState} {cs : List Nat}

theorem NodesRewritten.step (h : Orderly s) (hdone : NodesRewritten s cs F t) (hc : c ∉ cs)
    (hw : Forest.walk Attr.name s.nodes s.root path = some c)
    (hone : seen t path = seen s path → Overwrites t path (F (seen s path)) t') :
    NodesRewritten s (cs ++ [c]) F t' := by
  have hover : Overwrites t path (F (seen s path)) t' := by
    refine hone (hdone.outside path fun d hd heq => ?_)
    obtain rfl := Option.some.inj (hw.symm.trans heq)
    exact hc hd
  refine ⟨hdone.settled.trans hover.settled, fun d hd names hd' => ?_, fun names hnone => ?_⟩
  · rcases List.mem_append.mp hd with hd | hd
    · have hne : names ≠ path := by
        rintro rfl
        obtain rfl := Option.some.inj (hw.symm.trans hd')
        exact hc hd
      rw [hover.elsewhere names hne, hdone.inside d hd names hd']
    · obtain rfl := List.mem_singleton.mp hd
      obtain rfl := h.sound.tree.walk_unique hd' hw
      exact hover.here
  · have hne : names ≠ path := by
      rintro rfl
      exact hnone c (List.mem_append_right _ List.mem_cons_self) hw
    rw [hover.elsewhere names hne]
    exact hdone.outside names fun d hd => hnone d (List.mem_append_left _ hd)

theorem NodesRewritten.children (h : Orderly s)
    (hw : Forest.walk Attr.name s.nodes s.root path = some n) (hF : F none = none)
    (hall : NodesRewritten s (Forest.childrenOf s.nodes n) F s') : ChildrenRewritten s path F s' := by
  refine ⟨hall.settled, fun name => ?_, fun names hne => hall.outside names fun c hc heq => ?_⟩
  · cases hc : Forest.walk Attr.name s.nodes s.root (path ++ [name]) with
    | none =>
      have hnone := h.seen_eq_none.mpr hc
      rw [hnone, hF]
      refine (hall.outside _ fun c _ heq => ?_).trans hnone
      rw [hc] at heq
      cases heq
    | some c => exact hall.inside c (child_of_path hw hc) _ hc
  · obtain ⟨name, hpath⟩ := h.path_of_child hw hc
    exact hne name (h.sound.tree.walk_unique heq hpath)

theorem marked_nodes (h : Orderly s)
    (hw : Forest.walk Attr.name s.nodes s.root path = some n)
    (hcs : ∀ c ∈ cs, c ∈ Forest.childrenOf s.nodes n) (hnodup : cs.Nodup) :
    NodesRewritten s cs (Option.map (Prod.map id Sight.marked))
      (cs.foldl (fun s c => updateNode s c markedMissing) s) := by
  induction cs using List.reverseRecOn with
  | nil => exact ⟨h.settled, fun c hc => absurd hc List.not_mem_nil, fun _ _ => rfl⟩
  | append_singleton cs c ih =>
    have hnotin : c ∉ cs := fun hin =>
      (List.nodup_append.mp hnodup).2.2 c hin c List.mem_cons_self rfl
    obtain ⟨name, hpath⟩ := h.path_of_child hw (hcs c (List.mem_append_right _ List.mem_cons_self))
    obtain ⟨a, ha⟩ := h.valAt_walk hpath
    have hseen := seen_eq_some.mpr ⟨hpath, a, ha, rfl⟩
    have hdone := ih (fun d hd => hcs d (List.mem_append_left _ hd)) (List.nodup_append.mp hnodup).1
    rw [List.foldl_append, List.foldl_cons, List.foldl_nil]
    refine hdone.step h hnotin hpath fun hsame => ?_
    obtain ⟨hpath', b, hb, hsight⟩ := seen_eq_some.mp (hsame.trans hseen)
    have hmark := overwrites_marked hdone.settled.orderly hpath' hb
    rw [hsight] at hmark
    rw [hseen]
    exact hmark

theorem rewritten_markChildren (h : Orderly s)
    (hw : Forest.walk Attr.name s.nodes s.root path = some n) :
    ChildrenRewritten s path (Option.map (Prod.map id Sight.marked)) (markChildren s n) :=
  (marked_nodes h hw (fun _ hc => hc) (h.sound.tree.nodup n)).children h hw rfl

theorem sweepChild_keeps (ha : Forest.valAt s.nodes c = some a)
    (hfound : (sightOf s a).isMissing = false) : sweepChild s c = .ok s := by
  have hguard : (!a.isDirectory && a.modifiedTime == 0) = false := by
    cases hdir : a.isDirectory with
    | true => rfl
    | false =>
      rw [sightOf_file hdir] at hfound
      exact hfound
  rw [sweepChild, nodeAt_of_valAt ha]
  dsimp only [bind, Except.bind]
  rw [hguard, if_neg Bool.false_ne_true]

theorem sweepChild_removes (h : Orderly s)
    (hw : Forest.walk Attr.name s.nodes s.root path = some c)
    (ha : Forest.valAt s.nodes c = some a) (hmissing : (sightOf s a).isMissing = true) :
    ∃ s', sweepChild s c = .ok s' ∧ Overwrites s path none s' := by
  have hfile : a.isDirectory = false := by
    cases hdir : a.isDirectory with
    | true =>
      rw [sightOf, hdir, if_pos rfl] at hmissing
      cases hmissing
    | false => rfl
  rw [sightOf_file hfile] at hmissing
  have htime : (a.modifiedTime == 0) = true := hmissing
  obtain ⟨blocks, hfree⟩ := h.sound.freeData_ok ha
  have hroot : c ≠ s.root := by
    rintro rfl
    exact Bool.false_ne_true (hfile.symm.trans (h.sound.root_directory ha))
  refine ⟨_, ?_, overwrites_unlink h hw (h.sound.leaves ha hfile) hroot fun m b p hm hb hp =>
    h.sound.freed_keeps ha hfree hm hb hp⟩
  rw [sweepChild, nodeAt_of_valAt ha]
  dsimp only [bind, Except.bind]
  rw [hfile, htime, hfree]
  rfl

theorem rewritten_sweepChildren (h : Orderly s)
    (hw : Forest.walk Attr.name s.nodes s.root path = some n) :
    ∃ s', sweepChildren s n = .ok s' ∧
      ChildrenRewritten s path (Option.filter fun x => !x.2.isMissing) s' := by
  obtain ⟨s', hfold, hall⟩ : ∃ s', sweepChildren s n = .ok s' ∧
      NodesRewritten s (Forest.childrenOf s.nodes n) (Option.filter fun x => !x.2.isMissing) s' := by
    refine Outcome.foldlM_total
      (P := fun done t => NodesRewritten s done (Option.filter fun x => !x.2.isMissing) t)
      ⟨h.settled, fun c hc => absurd hc List.not_mem_nil, fun _ _ => rfl⟩ ?_
    intro done c rest t hcs hdone
    have hnodup := h.sound.tree.nodup n
    have hmem : c ∈ Forest.childrenOf s.nodes n := by
      rw [hcs]
      exact List.mem_append_right _ List.mem_cons_self
    rw [hcs] at hnodup
    have hnotin : c ∉ done := fun hin =>
      (List.nodup_append.mp hnodup).2.2 c hin c List.mem_cons_self rfl
    obtain ⟨name, hpath⟩ := h.path_of_child hw hmem
    obtain ⟨a, ha⟩ := h.valAt_walk hpath
    have hseen := seen_eq_some.mpr ⟨hpath, a, ha, rfl⟩
    have hsame : seen t (path ++ [name]) = some (c, sightOf s a) := by
      refine (hdone.outside _ fun d hd heq => ?_).trans hseen
      obtain rfl := Option.some.inj (hpath.symm.trans heq)
      exact hnotin hd
    obtain ⟨hpath', b, hb, hsight⟩ := seen_eq_some.mp hsame
    cases hmissing : (sightOf s a).isMissing with
    | false =>
      refine ⟨t, sweepChild_keeps hb (hsight ▸ hmissing), hdone.step h hnotin hpath fun _ => ?_⟩
      refine ⟨hdone.settled.orderly.settled, ?_, fun _ _ => rfl⟩
      rw [hsame, hseen, Option.filter_some, hmissing]
      rfl
    | true =>
      obtain ⟨t', hstep, hgone⟩ := sweepChild_removes hdone.settled.orderly hpath' hb
        (hsight ▸ hmissing)
      refine ⟨t', hstep, hdone.step h hnotin hpath fun _ => ?_⟩
      rw [hseen, Option.filter_some, hmissing]
      exact hgone
  exact ⟨s', hfold, hall.children h hw rfl⟩

end Children

end ZoraVM.Vfs
