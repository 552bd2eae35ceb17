import ZoraVM.Foundation.Framed
import ZoraVM.Vfs.UnreadableHost

namespace ZoraVM.Vfs

open Foundation

structure Carries (s s' : VfsState) : Prop where
  steady : Steady s'.nodes s'.blocks
  root : s'.root = s.root
  host : s'.host = s.host
  clock : s'.clock = s.clock
  keys : Forest.KeysKept Attr.name s.nodes s'.nodes

structure Moved (P : Nat → Prop) (m : Nat) (s s' : VfsState) : Prop where
  nodes : Forest.Framed P m s.nodes s'.nodes
  contents : ∀ {x a p}, P x → Forest.valAt s.nodes x = some a → a.data = some p →
    s'.blocks.get p = s.blocks.get p

structure Rewrites (c : Nat) (s s' : VfsState) : Prop where
  carries : Carries s s'
  parent : ∀ x, Forest.parentOf s'.nodes x = Forest.parentOf s.nodes x
  children : ∀ x, Forest.childrenOf s'.nodes x = Forest.childrenOf s.nodes x
  val : ∀ {x}, x ≠ c → Forest.valAt s'.nodes x = Forest.valAt s.nodes x
  contents : ∀ {x a p}, x ≠ c → Forest.valAt s.nodes x = some a → a.data = some p →
    s'.blocks.get p = s.blocks.get p

variable {P : Nat → Prop} {s s' t : VfsState} {n c m x : Nat} {a v : Attr} {f : Attr → Attr}
  {blocks : Heap Bytes} {path : Bytes}

section Relations

theorem Steady.carries (h : Steady s.nodes s.blocks) : Carries s s :=
  ⟨h, rfl, rfl, rfl, Forest.KeysKept.refl _ _⟩

theorem Carries.trans (h : Carries s t) (h' : Carries t s') : Carries s s' :=
  ⟨h'.steady, h'.root.trans h.root, h'.host.trans h.host, h'.clock.trans h.clock,
    h.keys.trans h'.keys⟩

theorem Moved.refl (P : Nat → Prop) (m : Nat) (s : VfsState) : Moved P m s s :=
  ⟨Forest.Framed.refl P m _, fun _ _ _ => rfl⟩

theorem Moved.trans (h : Moved P m s t) (h' : Moved P m t s') : Moved P m s s' := by
  refine ⟨h.nodes.trans h'.nodes, fun hx ha hp => ?_⟩
  have ht := (h.nodes.val hx).trans ha
  rw [h'.contents hx ht hp, h.contents hx ha hp]

theorem Moved.outside (h : Moved P n s s') (hn : ¬ P n) (m : Nat) : Moved P m s s' :=
  ⟨h.nodes.outside hn m, h.contents⟩

theorem Moved.nodeContent (h : Moved P m s s') (hx : P x) (ha : Forest.valAt s.nodes x = some a) :
    nodeContent s' a = nodeContent s a := by
  unfold Vfs.nodeContent
  cases hd : a.data with
  | none => rfl
  | some p =>
    dsimp only
    rw [h.contents hx ha hd]

theorem Moved.upward (h : Moved P m s s') (hc : Carries s s') (hup : Forest.Upward P s.nodes) :
    Forest.Upward P s'.nodes := hup.framed h.nodes hc.keys.grows

theorem Steady.rewrites (h : Steady s.nodes s.blocks) (c : Nat) : Rewrites c s s :=
  ⟨h.carries, fun _ => rfl, fun _ => rfl, fun _ => rfl, fun _ _ _ => rfl⟩

theorem Rewrites.trans (h : Rewrites c s t) (h' : Rewrites c t s') : Rewrites c s s' := by
  refine ⟨h.carries.trans h'.carries, fun x => (h'.parent x).trans (h.parent x),
    fun x => (h'.children x).trans (h.children x), fun hx => (h'.val hx).trans (h.val hx),
    fun hx ha hp => ?_⟩
  rw [h'.contents hx ((h.val hx).trans ha) hp, h.contents hx ha hp]

theorem Rewrites.moved (h : Rewrites c s s') (hc : ¬ P c) (m : Nat) : Moved P m s s' := by
  have hne : ∀ {x}, P x → x ≠ c := by
    rintro x hx rfl
    exact hc hx
  exact ⟨⟨fun hx => h.val (hne hx), fun _ => h.parent _, fun _ _ => h.children _⟩,
    fun hx => h.contents (hne hx)⟩

theorem Rewrites.childNamed (h : Rewrites c s s') (hs : Steady s.nodes s.blocks) (n : Nat)
    (k : Bytes) :
    Forest.childNamed Attr.name s'.nodes n k = Forest.childNamed Attr.name s.nodes n k :=
  Forest.childNamed_congr hs.linked h.carries.steady.linked h.carries.keys (h.children n) k

end Relations

section Steps

theorem addChild_carries (h : Steady s.nodes s.blocks) (hn : s.nodes.live n = true)
    (hv : v.data = none) : Carries s (vfsAddChild s n v) := by
  refine ⟨⟨h.linked.link hn v, fun {m a p} ha hp => ?_, fun {m k a b p} ha hb hpa hpb => ?_⟩, rfl,
    rfl, rfl, Forest.keysKept_link hn v⟩
  · rw [vfsAddChild, Forest.valAt_link hn] at ha
    split at ha
    · obtain rfl := Option.some.inj ha
      cases hv.symm.trans hp
    · exact h.stored ha hp
  · rw [vfsAddChild, Forest.valAt_link hn] at ha hb
    split at ha
    · obtain rfl := Option.some.inj ha
      cases hv.symm.trans hpa
    · split at hb
      · obtain rfl := Option.some.inj hb
        cases hv.symm.trans hpb
      · exact h.unshared ha hb hpa hpb

theorem addChild_moved (hn : s.nodes.live n = true) (v : Attr) (hup : Forest.Upward P s.nodes) :
    Moved P n s (vfsAddChild s n v) := ⟨Forest.framed_link hup hn v, fun _ _ _ => rfl⟩

theorem rewrites_update (h : Steady s.nodes s.blocks) (ha : Forest.valAt s.nodes c = some a)
    (hname : ∀ b, (f b).name = b.name)
    (hstored : ∀ p, (f a).data = some p → (∃ b, blocks.get p = some b) ∧
      ∀ m b, m ≠ c → Forest.valAt s.nodes m = some b → b.data ≠ some p)
    (hkeep : ∀ {m b p}, m ≠ c → Forest.valAt s.nodes m = some b → b.data = some p →
      blocks.get p = s.blocks.get p) :
    Rewrites c s { updateNode s c f with blocks := blocks } := by
  have hval : ∀ {m b}, Forest.valAt (Forest.update s.nodes c f) m = some b →
      (m = c ∧ b = f a) ∨ (m ≠ c ∧ Forest.valAt s.nodes m = some b) := by
    intro m b hb
    rw [Forest.valAt_update] at hb
    by_cases hm : m = c
    · rw [if_pos hm, ha] at hb
      exact .inl ⟨hm, (Option.some.inj hb).symm⟩
    · rw [if_neg hm] at hb
      exact .inr ⟨hm, hb⟩
  refine ⟨⟨⟨h.linked.update c f, fun {m b p} hb hp => ?_, fun {m k b d p} hb hd hpb hpd => ?_⟩, rfl,
    rfl, rfl, Forest.keysKept_update hname c⟩, fun x => Forest.parentOf_update _ _ x _,
    fun x => Forest.childrenOf_update _ _ x _, fun hx => Forest.valAt_update_of_ne f hx, hkeep⟩
  · rcases hval hb with ⟨_, rfl⟩ | ⟨hm, hb⟩
    · exact (hstored p hp).1
    · obtain ⟨content, hcontent⟩ := h.stored hb hp
      exact ⟨content, (hkeep hm hb hp).trans hcontent⟩
  · rcases hval hb with ⟨hm, rfl⟩ | ⟨hm, hb⟩ <;> rcases hval hd with ⟨hk, rfl⟩ | ⟨hk, hd⟩
    · exact hm.trans hk.symm
    · exact absurd hpd ((hstored p hpb).2 k d hk hd)
    · exact absurd hpb ((hstored p hpd).2 m b hm hb)
    · exact h.unshared hb hd hpb hpd

theorem rewrites_sameData (h : Steady s.nodes s.blocks) (ha : Forest.valAt s.nodes c = some a)
    (hname : ∀ b, (f b).name = b.name) (hdata : (f a).data = a.data) :
    Rewrites c s (updateNode s c f) := by
  refine rewrites_update h ha hname (fun p hp => ?_) fun _ _ _ => rfl
  rw [hdata] at hp
  exact ⟨h.stored ha hp, fun m b hm hb hpb => hm (h.unshared hb ha hpb hp)⟩

theorem rewrites_freed (h : Steady s.nodes s.blocks) (ha : Forest.valAt s.nodes c = some a)
    (hfree : freeData s.blocks a.data = .ok blocks) :
    Rewrites c s { updateNode s c withoutData with blocks := blocks } := by
  refine rewrites_update h ha (fun _ => rfl) (fun p hp => ?_) fun hm hb hp =>
    h.freed_keeps ha hfree hm hb hp
  cases hp

theorem rewrites_stored (h : Steady s.nodes s.blocks) (ha : Forest.valAt s.nodes c = some a)
    (content : Bytes) :
    Rewrites c s { updateNode s c (withData (some s.blocks.size) content.length) with
      blocks := s.blocks.alloc content } := by
  have hold : ∀ {m b p}, Forest.valAt s.nodes m = some b → b.data = some p → p ≠ s.blocks.size :=
    fun hb hp => Nat.ne_of_lt (h.lt_size hb hp)
  refine rewrites_update h ha (fun _ => rfl) (fun p hp => ?_) fun _ hb hp =>
    Heap.get_alloc_of_ne (hold hb hp)
  obtain rfl := Option.some.inj hp
  exact ⟨⟨content, Heap.get_alloc_self _ _⟩, fun m b _ hb hpb => hold hb hpb rfl⟩

theorem unlink_carries (h : Steady s.nodes s.blocks) (ha : Forest.valAt s.nodes c = some a)
    (hfree : freeData s.blocks a.data = .ok blocks) :
    Carries s { s with nodes := Forest.unlink s.nodes c, blocks := blocks } := by
  have hval : ∀ {m b}, Forest.valAt (Forest.unlink s.nodes c) m = some b →
      m ≠ c ∧ Forest.valAt s.nodes m = some b := by
    intro m b hb
    rw [Forest.valAt_unlink] at hb
    split at hb
    · cases hb
    · next hm => exact ⟨hm, hb⟩
  refine ⟨⟨h.linked.unlink c, fun {m b p} hb hp => ?_, fun {m k b d p} hb hd hpb hpd => ?_⟩, rfl,
    rfl, rfl, Forest.keysKept_unlink c⟩
  · obtain ⟨hm, hb⟩ := hval hb
    obtain ⟨content, hcontent⟩ := h.stored hb hp
    exact ⟨content, (h.freed_keeps ha hfree hm hb hp).trans hcontent⟩
  · exact h.unshared (hval hb).2 (hval hd).2 hpb hpd

theorem unlink_moved (h : Steady s.nodes s.blocks) (ha : Forest.valAt s.nodes c = some a)
    (hfree : freeData s.blocks a.data = .ok blocks) (hc : ¬ P c)
    (hparent : Forest.parentOf s.nodes c = some n) :
    Moved P n s { s with nodes := Forest.unlink s.nodes c, blocks := blocks } := by
  refine ⟨Forest.framed_unlink hc hparent, fun {x b p} hx hb hp => ?_⟩
  refine h.freed_keeps ha hfree ?_ hb hp
  rintro rfl
  exact hc hx

end Steps

section Files

variable (writeTime : Location → BitVec 64)

structure Reread (path : Bytes) (s s' : VfsState) (a b : Attr) : Prop where
  kind : b.isDirectory = a.isDirectory
  found : 0 < s.clock → 0 < b.modifiedTime
  loaded : ∀ fresh, s.host.openRead path = some fresh →
    a.modifiedTime < timeOfFileTime (writeTime (Location.resolve path)) →
    b.size = (loadedBytes fresh).length ∧ nodeContent s' b = loadedBytes fresh
  kept : s.host.openRead path = none ∨
    timeOfFileTime (writeTime (Location.resolve path)) ≤ a.modifiedTime →
    b.size = a.size ∧ nodeContent s' b = nodeContent s a

variable {writeTime}

theorem valAt_updateNode (ha : Forest.valAt s.nodes c = some a) (f : Attr → Attr) :
    Forest.valAt (updateNode s c f).nodes c = some (f a) := by
  rw [updateNode, Forest.valAt_update_self, ha]
  rfl

theorem readInto_rewrites (h : Steady s.nodes s.blocks) (ha : Forest.valAt s.nodes c = some a)
    (hnone : a.data = none) (path : Bytes) :
    ∃ b, Rewrites c s (readInto s c path) ∧ Forest.valAt (readInto s c path).nodes c = some b ∧
      b.isDirectory = a.isDirectory ∧
      ∀ fresh, s.host.openRead path = some fresh →
        b.size = (loadedBytes fresh).length ∧ nodeContent (readInto s c path) b = loadedBytes fresh := by
  cases hopen : s.host.openRead path with
  | none =>
    have hsame : readInto s c path = s := by rw [readInto, hopen]
    rw [hsame]
    exact ⟨a, h.rewrites c, ha, rfl, fun _ hsome => by cases hsome⟩
  | some content =>
    by_cases hsize : 0 < ftellSize content
    · have hread : readInto s c path =
          { updateNode s c (withData (some s.blocks.size) content.length) with
            blocks := s.blocks.alloc content } := by
        rw [readInto, hopen]
        exact if_pos hsize
      rw [hread]
      refine ⟨_, rewrites_stored h ha content, valAt_updateNode ha _, rfl, fun fresh hfresh => ?_⟩
      obtain rfl := Option.some.inj hfresh
      have hloaded : loadedBytes content = content := if_pos hsize
      rw [hloaded]
      exact ⟨rfl, nodeContent_stored rfl rfl rfl⟩
    · have hread : readInto s c path = updateNode s c (withSize 0) := by
        rw [readInto, hopen]
        exact if_neg hsize
      rw [hread]
      refine ⟨_, rewrites_sameData h ha (fun _ => rfl) rfl, valAt_updateNode ha _, rfl,
        fun fresh hfresh => ?_⟩
      obtain rfl := Option.some.inj hfresh
      have hloaded : loadedBytes content = [] := if_neg hsize
      have hdata : (withSize 0 a).data = none := hnone
      rw [hloaded, nodeContent, hdata]
      exact ⟨rfl, rfl⟩

theorem syncExistingFile_rewrites (writeTime : Location → BitVec 64)
    (h : Steady s.nodes s.blocks) (ha : Forest.valAt s.nodes c = some a) (path : Bytes) :
    ∃ s' b, syncExistingFile s writeTime c path = .ok s' ∧ Rewrites c s s' ∧
      Forest.valAt s'.nodes c = some b ∧ Reread writeTime path s s' a b := by
  have hfound := rewrites_sameData (f := touched s.clock) h ha (fun _ => rfl) rfl
  have haf := valAt_updateNode ha (touched s.clock)
  by_cases hreload : (s.host.openRead path).isSome = true ∧
      a.modifiedTime < timeOfFileTime (writeTime (Location.resolve path))
  · obtain ⟨blocks, hfree⟩ := h.freeData_ok ha
    have hfreed := rewrites_freed hfound.carries.steady haf hfree
    obtain ⟨b, hread, hb, hkind, hloaded⟩ := readInto_rewrites hfreed.carries.steady
      (valAt_updateNode haf withoutData) rfl path
    have htouch := rewrites_sameData
      (f := touched (timeOfFileTime (writeTime (Location.resolve path)))) hread.carries.steady hb
      (fun _ => rfl) rfl
    refine ⟨_, _, ?_, hfound.trans (hfreed.trans (hread.trans htouch)), valAt_updateNode hb _, hkind,
      fun _ => Nat.lt_of_le_of_lt (Nat.zero_le _) hreload.2, fun fresh hfresh _ => hloaded fresh hfresh,
      fun hkept => ?_⟩
    · have hguard : ((s.host.openRead path).isSome &&
          decide (a.modifiedTime < timeOfFileTime (writeTime (Location.resolve path)))) = true := by
        rw [hreload.1, decide_eq_true hreload.2]
        rfl
      rw [syncExistingFile, nodeAt_of_valAt ha]
      dsimp only [bind, Except.bind]
      rw [if_pos hguard, hfree]
    · rcases hkept with hnone | hle
      · rw [hnone] at hreload
        cases hreload.1
      · exact absurd hreload.2 (Nat.not_lt_of_le hle)
  · refine ⟨_, _, ?_, hfound, haf, rfl, id, fun fresh hfresh hlt => ?_, fun _ => ⟨rfl, rfl⟩⟩
    · have hguard : ((s.host.openRead path).isSome &&
          decide (a.modifiedTime < timeOfFileTime (writeTime (Location.resolve path)))) = false := by
        rw [Bool.and_eq_false_imp]
        exact fun hsome => decide_eq_false fun hlt => hreload ⟨hsome, hlt⟩
      rw [syncExistingFile, nodeAt_of_valAt ha]
      dsimp only [bind, Except.bind]
      rw [hguard, if_neg Bool.false_ne_true]
    · exact absurd ⟨by rw [hfresh]; rfl, hlt⟩ hreload

end Files

section Entries

structure StaysBelow (n : Nat) (s s' : VfsState) : Prop where
  carries : Carries s s'
  moved : ∀ P, Forest.Upward P s.nodes → (∀ x, P x → Forest.parentOf s.nodes x ≠ some n) →
    Moved P n s s'

structure EntryDone (n : Nat) (name : Bytes) (s s' : VfsState) : Prop where
  carries : Carries s s'
  moved : ∀ P, Forest.Upward P s.nodes →
    (∀ x, Forest.childNamed Attr.name s.nodes n name = some x → ¬ P x) → Moved P n s s'
  others : ∀ k, k ≠ name →
    Forest.childNamed Attr.name s'.nodes n k = Forest.childNamed Attr.name s.nodes n k

-- A tree on the host whose entries can be named and listed, whoever may read its files and
-- whenever they were written.
def NamedTree (h : Host) (hostPath : Bytes) : Prop :=
  HostTree { h with mayRead := fun _ => true } (fun _ => 116444736010000000) hostPath

theorem NamedTree.searchable {h : Host} {hostPath : Bytes} (ht : NamedTree h hostPath) :
    h.searchable (clip maxPath (hostPath ++ [backslash, 42])) = true := by
  have hopen := HostTree.searchable ht
  exact hopen

theorem NamedTree.mem_searchAll {h : Host} {hostPath name : Bytes} {e : HostEntry}
    (ht : NamedTree h hostPath) :
    (name, e) ∈ searchAll h hostPath ↔ h.entryBelow hostPath [name] = some e := by
  have hlisted : (name, e) ∈ searchAll { h with mayRead := fun _ => true } hostPath ↔
      Host.entryBelow { h with mayRead := fun _ => true } hostPath [name] = some e :=
    HostTree.mem_searchAll ht
  exact hlisted

theorem NamedTree.nodup_searchAll {h : Host} {hostPath : Bytes} (ht : NamedTree h hostPath) :
    ((searchAll h hostPath).map Prod.fst).Nodup := by
  have hnodup := HostTree.nodup_searchAll ht
  exact hnodup

def Calm (h : Host) (hostPath : Bytes)
    (syncDirectory : VfsState → Nat → Bytes → Outcome (Int × VfsState)) : Prop :=
  ∀ s n, Steady s.nodes s.blocks → s.host = h → s.nodes.live n = true →
    ∃ s', syncDirectory s n hostPath = .ok (1, s') ∧ StaysBelow n s s'

variable {writeTime : Location → BitVec 64} {h : Host} {hostPath name : Bytes} {e : HostEntry}
  {syncDirectory : VfsState → Nat → Bytes → Outcome (Int × VfsState)}

theorem StaysBelow.live (hs : Steady s.nodes s.blocks) (hn : s.nodes.live n = true)
    (hbelow : StaysBelow n s s') : s'.nodes.live n = true := by
  have hmoved := hbelow.moved (· ≤ n) (Forest.upward_le hs.linked hn) fun x hx hparent =>
    absurd (hs.linked.older hparent) (Nat.not_lt_of_le hx)
  obtain ⟨a, ha⟩ := Forest.live_iff_valAt.mp hn
  exact Forest.live_iff_valAt.mpr ⟨a, (hmoved.nodes.val (Nat.le_refl n)).trans ha⟩

theorem StaysBelow.moved_above (hbelow : StaysBelow x s s') (hup : Forest.Upward P s.nodes)
    (hx : ¬ P x) (n : Nat) : Moved P n s s' :=
  (hbelow.moved P hup fun _ hy hyx => hx (hup.parent hy hyx)).outside hx n

theorem StaysBelow.childNamed (hs : Steady s.nodes s.blocks) (hn : s.nodes.live n = true)
    (hbelow : StaysBelow x s s') (hparent : Forest.parentOf s.nodes x = some n) (k : Bytes) :
    Forest.childNamed Attr.name s'.nodes n k = Forest.childNamed Attr.name s.nodes n k := by
  have holder := hs.linked.older hparent
  have hmoved := hbelow.moved (· ≤ n) (Forest.upward_le hs.linked hn) fun y hy hyx =>
    absurd (hs.linked.older hyx) (by omega)
  exact Forest.childNamed_congr hs.linked hbelow.carries.steady.linked hbelow.carries.keys
    (hmoved.nodes.children (Nat.le_refl n) (Nat.ne_of_lt holder)) k

theorem childNamed_addChild (hs : Steady s.nodes s.blocks) (hn : s.nodes.live n = true)
    {k : Bytes} (hk : k ≠ v.name) :
    Forest.childNamed Attr.name (vfsAddChild s n v).nodes n k =
      Forest.childNamed Attr.name s.nodes n k := by
  rw [vfsAddChild, hs.linked.childNamed_link hn, if_neg fun hsame => hk hsame.2.symm]

theorem syncNewFile_done (hs : Steady s.nodes s.blocks) (hn : s.nodes.live n = true)
    (hname : clip 256 name = name) (path : Bytes) :
    EntryDone n name s (syncNewFile s n name path) := by
  have hadd := addChild_carries (v := vfsCreateFileNode s name) hs hn rfl
  have hval : Forest.valAt (vfsAddChild s n (vfsCreateFileNode s name)).nodes s.nodes.size =
      some (vfsCreateFileNode s name) := by
    rw [vfsAddChild, Forest.valAt_link hn, if_pos rfl]
  obtain ⟨b, hread, hb, _, _⟩ := readInto_rewrites hadd.steady hval rfl path
  have htouch := rewrites_sameData (f := touched s.clock) hread.carries.steady hb (fun _ => rfl) rfl
  have hstored := hread.trans htouch
  refine ⟨hadd.trans hstored.carries, fun P hup _ => ?_, fun k hk => ?_⟩
  · have hfresh : ¬ P s.nodes.size := fun hin => Nat.lt_irrefl _ (hup.bound hin)
    exact (addChild_moved hn _ hup).trans (hstored.moved hfresh n)
  · have hnode : (vfsCreateFileNode s name).name = name := hname
    have hother := childNamed_addChild (v := vfsCreateFileNode s name) hs hn (hnode.symm ▸ hk)
    exact (hstored.childNamed hadd.steady n k).trans hother

theorem syncNewDirectory_done (hs : Steady s.nodes s.blocks) (hn : s.nodes.live n = true)
    (hname : clip 256 name = name)
    (hsub : StaysBelow s.nodes.size (vfsAddChild s n (vfsCreateDirectoryNode s name)) s') :
    EntryDone n name s s' := by
  have hadd := addChild_carries (v := vfsCreateDirectoryNode s name) hs hn rfl
  have hlive : (vfsAddChild s n (vfsCreateDirectoryNode s name)).nodes.live n = true :=
    (Forest.live_link hn _ n).mpr (.inr hn)
  have hparent : Forest.parentOf (vfsAddChild s n (vfsCreateDirectoryNode s name)).nodes
      s.nodes.size = some n := by
    rw [vfsAddChild, Forest.parentOf_link hn, if_pos rfl]
  refine ⟨hadd.trans hsub.carries, fun P hup _ => ?_, fun k hk => ?_⟩
  · have hmoved := addChild_moved hn (vfsCreateDirectoryNode s name) hup
    have hfresh : ¬ P s.nodes.size := fun hin => Nat.lt_irrefl _ (hup.bound hin)
    exact hmoved.trans (hsub.moved_above (hmoved.upward hadd hup) hfresh n)
  · have hnode : (vfsCreateDirectoryNode s name).name = name := hname
    have hother := childNamed_addChild (v := vfsCreateDirectoryNode s name) hs hn (hnode.symm ▸ hk)
    exact (hsub.childNamed hadd.steady hlive hparent k).trans hother

variable (writeTime) in
theorem syncEntry_done (ht : NamedTree h hostPath) (he : h.entryBelow hostPath [name] = some e)
    (hsub : e = .directory → Calm h (entryPath hostPath name) syncDirectory)
    (hs : Steady s.nodes s.blocks) (hhost : s.host = h) (hn : s.nodes.live n = true) :
    ∃ s', syncEntry writeTime syncDirectory n hostPath s (name, e) = .ok s' ∧
      EntryDone n name s s' := by
  have hname : clip 256 name = name := clip_name (ht.plain_single he)
  cases hc : Forest.childNamed Attr.name s.nodes n name with
  | none =>
    cases e with
    | directory =>
      have hadd := addChild_carries (v := vfsCreateDirectoryNode s name) hs hn rfl
      have hlive : (vfsAddChild s n (vfsCreateDirectoryNode s name)).nodes.live s.nodes.size = true :=
        (Forest.live_link hn _ _).mpr (.inl rfl)
      obtain ⟨s', hrun, hbelow⟩ := hsub rfl _ _ hadd.steady (hadd.host.trans hhost) hlive
      refine ⟨s', ?_, syncNewDirectory_done hs hn hname hbelow⟩
      dsimp only [syncEntry]
      rw [hc, hrun]
      rfl
    | file content =>
      refine ⟨_, ?_, syncNewFile_done hs hn hname (entryPath hostPath name)⟩
      dsimp only [syncEntry]
      rw [hc]
  | some x =>
    obtain ⟨hlive, hparent⟩ := hs.linked.child_parent (Forest.childNamed_eq_some hc).1
    cases e with
    | directory =>
      obtain ⟨s', hrun, hbelow⟩ := hsub rfl s x hs hhost hlive
      refine ⟨s', ?_, hbelow.carries, fun P hup hx => ?_, fun k _ => ?_⟩
      · dsimp only [syncEntry]
        rw [hc]
        dsimp only
        rw [hrun]
        rfl
      · exact hbelow.moved_above hup (hx x hc) n
      · exact hbelow.childNamed hs hn hparent k
    | file content =>
      obtain ⟨a, ha⟩ := Forest.live_iff_valAt.mp hlive
      obtain ⟨s', b, hrun, hstored, _, _⟩ := syncExistingFile_rewrites writeTime hs ha
        (entryPath hostPath name)
      refine ⟨s', ?_, hstored.carries, fun P _ hx => hstored.moved (hx x hc) n,
        fun k _ => hstored.childNamed hs n k⟩
      dsimp only [syncEntry]
      rw [hc]
      exact hrun

end Entries

section Marks

variable {cs : List Nat}

theorem parentOf_markAll (s : VfsState) (cs : List Nat) (m : Nat) :
    Forest.parentOf (markAll s cs).nodes m = Forest.parentOf s.nodes m := by
  induction cs generalizing s with
  | nil => rfl
  | cons c cs ih => exact (ih _).trans (Forest.parentOf_update s.nodes c m markedMissing)

theorem markedMissing_fields (a : Attr) : (markedMissing a).name = a.name ∧
    (markedMissing a).data = a.data ∧ (markedMissing a).size = a.size ∧
    (markedMissing a).isDirectory = a.isDirectory := by
  unfold markedMissing
  split
  · exact ⟨rfl, rfl, rfl, rfl⟩
  · exact ⟨rfl, rfl, rfl, rfl⟩

theorem markAll_carries (hs : Steady s.nodes s.blocks) (hcs : ∀ c ∈ cs, s.nodes.live c = true) :
    Carries s (markAll s cs) := by
  induction cs generalizing s with
  | nil => exact hs.carries
  | cons c cs ih =>
    obtain ⟨a, ha⟩ := Forest.live_iff_valAt.mp (hcs c List.mem_cons_self)
    have hone := rewrites_sameData (f := markedMissing) hs ha (fun b => (markedMissing_fields b).1)
      (markedMissing_fields a).2.1
    refine hone.carries.trans (ih hone.carries.steady fun d hd => ?_)
    rw [updateNode, Forest.live_update]
    exact hcs d (List.mem_cons_of_mem c hd)

theorem markAll_moved (n : Nat)
    (hcs : ∀ c ∈ cs, P c → ∀ a, Forest.valAt s.nodes c = some a → markedMissing a = a) :
    Moved P n s (markAll s cs) := by
  refine ⟨⟨fun {x} hx => ?_, fun {x} _ => parentOf_markAll s cs x,
    fun {x} _ _ => childrenOf_markAll s cs x⟩, fun _ _ _ => by rw [blocks_markAll]⟩
  rw [valAt_markAll]
  split
  · next hc =>
    cases ha : Forest.valAt s.nodes x with
    | none => rfl
    | some a => rw [Option.map_some, hcs x hc hx a ha]
  · rfl

end Marks

section Sweep

def isMissing (a : Attr) : Bool := !a.isDirectory && a.modifiedTime == 0

-- The loop of the second pass, when it has been through the children `done`.
structure Swept (n : Nat) (done : List Nat) (s s' : VfsState) : Prop where
  carries : Carries s s'
  moved : ∀ P : Nat → Prop,
    (∀ c ∈ done, P c → ∀ a, Forest.valAt s.nodes c = some a → isMissing a = false) → Moved P n s s'
  named : ∀ k c a, Forest.childNamed Attr.name s.nodes n k = some c →
    Forest.valAt s.nodes c = some a → isMissing a = false →
    Forest.childNamed Attr.name s'.nodes n k = some c

theorem sweepChild_swept (hs : Steady s.nodes s.blocks) (ha : Forest.valAt s.nodes c = some a)
    (hparent : Forest.parentOf s.nodes c = some n) :
    ∃ s', sweepChild s c = .ok s' ∧ Swept n [c] s s' := by
  cases hmissing : isMissing a with
  | false =>
    refine ⟨s, ?_, hs.carries, fun P _ => Moved.refl P n s, fun _ _ _ hnamed _ _ => hnamed⟩
    have hguard : (!a.isDirectory && a.modifiedTime == 0) = false := hmissing
    rw [sweepChild, nodeAt_of_valAt ha]
    dsimp only [bind, Except.bind]
    rw [hguard, if_neg Bool.false_ne_true]
  | true =>
    obtain ⟨blocks, hfree⟩ := hs.freeData_ok ha
    refine ⟨_, ?_, unlink_carries hs ha hfree, fun P hkept => unlink_moved hs ha hfree ?_ hparent,
      fun k d b hnamed hb hfound => ?_⟩
    · have hguard : (!a.isDirectory && a.modifiedTime == 0) = true := hmissing
      rw [sweepChild, nodeAt_of_valAt ha]
      dsimp only [bind, Except.bind]
      rw [hguard, if_pos rfl, hfree]
    · intro hin
      cases (hkept c List.mem_cons_self hin a ha).symm.trans hmissing
    · have hne : Forest.childNamed Attr.name s.nodes n k ≠ some c := by
        rw [hnamed]
        rintro ⟨⟩
        obtain rfl := Option.some.inj (ha.symm.trans hb)
        cases hfound.symm.trans hmissing
      rw [hs.linked.childNamed_unlink (Nat.ne_of_lt (hs.linked.older hparent)) hne, hnamed]

theorem Swept.step {done : List Nat} (h : Swept n done s t) (hc : c ∉ done)
    (h' : Swept n [c] t s') : Swept n (done ++ [c]) s s' := by
  have hsame : Forest.valAt t.nodes c = Forest.valAt s.nodes c := by
    refine (h.moved (· = c) fun d hd heq => ?_).nodes.val rfl
    exact absurd (heq ▸ hd) hc
  refine ⟨h.carries.trans h'.carries, fun P hkept => ?_, fun k d a hnamed ha hfound => ?_⟩
  · refine (h.moved P fun d hd => hkept d (List.mem_append_left _ hd)).trans
      (h'.moved P fun d hd => ?_)
    obtain rfl := List.mem_singleton.mp hd
    rw [hsame]
    exact hkept d (List.mem_append_right _ hd)
  · have hkeep : Forest.valAt t.nodes d = Forest.valAt s.nodes d := by
      refine (h.moved (· = d) fun x _ heq b hb => ?_).nodes.val rfl
      rw [heq, ha] at hb
      exact Option.some.inj hb ▸ hfound
    exact h'.named k d a (h.named k d a hnamed ha hfound) (hkeep.trans ha) hfound

theorem sweepChildren_swept (hs : Steady s.nodes s.blocks) (n : Nat) :
    ∃ s', sweepChildren s n = .ok s' ∧ Swept n (Forest.childrenOf s.nodes n) s s' := by
  refine Outcome.foldlM_total (P := fun done t => Swept n done s t)
    ⟨hs.carries, fun P _ => Moved.refl P n s, fun _ _ _ hnamed _ _ => hnamed⟩ ?_
  intro done c rest t hcs hdone
  have hnodup := hs.linked.nodup n
  have hmem : c ∈ Forest.childrenOf s.nodes n := by
    rw [hcs]
    exact List.mem_append_right _ List.mem_cons_self
  rw [hcs] at hnodup
  have hnew : c ∉ done := fun hin =>
    (List.nodup_append.mp hnodup).2.2 c hin c List.mem_cons_self rfl
  obtain ⟨hlive, hparent⟩ := hs.linked.child_parent hmem
  obtain ⟨a, ha⟩ := Forest.live_iff_valAt.mp hlive
  have hmoved := hdone.moved (· = c) fun d hd heq => absurd (heq ▸ hd) hnew
  obtain ⟨t', hstep, hone⟩ := sweepChild_swept hdone.carries.steady
    ((hmoved.nodes.val rfl).trans ha) ((hmoved.nodes.parent rfl).trans hparent)
  exact ⟨t', hstep, hdone.step hnew hone⟩

end Sweep

section Directories

variable {writeTime : Location → BitVec 64} {h : Host} {hostPath : Bytes}
  {syncDirectory : VfsState → Nat → Bytes → Outcome (Int × VfsState)}
  {entries : List (Bytes × HostEntry)}

structure EntriesDone (n : Nat) (names : List Bytes) (s s' : VfsState) : Prop where
  carries : Carries s s'
  moved : ∀ P, Forest.Upward P s.nodes →
    (∀ x, P x → Forest.parentOf s.nodes x = some n → ∀ k ∈ names,
      Forest.keyAt Attr.name s.nodes x ≠ some k) → Moved P n s s'
  others : ∀ k, k ∉ names →
    Forest.childNamed Attr.name s'.nodes n k = Forest.childNamed Attr.name s.nodes n k

theorem EntriesDone.live {names : List Bytes} (hs : Steady s.nodes s.blocks)
    (hn : s.nodes.live n = true) (hdone : EntriesDone n names s s') : s'.nodes.live n = true := by
  have hmoved := hdone.moved (· ≤ n) (Forest.upward_le hs.linked hn) fun x hx hparent =>
    absurd (hs.linked.older hparent) (Nat.not_lt_of_le hx)
  obtain ⟨a, ha⟩ := Forest.live_iff_valAt.mp hn
  exact Forest.live_iff_valAt.mpr ⟨a, (hmoved.nodes.val (Nat.le_refl n)).trans ha⟩

theorem EntriesDone.step {names : List Bytes} {name : Bytes} (hdone : EntriesDone n names s t)
    (hone : EntryDone n name t s') : EntriesDone n (names ++ [name]) s s' := by
  refine ⟨hdone.carries.trans hone.carries, fun P hup hout => ?_, fun k hk => ?_⟩
  · have hmoved := hdone.moved P hup fun x hx hparent k hk =>
      hout x hx hparent k (List.mem_append_left _ hk)
    refine hmoved.trans (hone.moved P (hmoved.upward hdone.carries hup) fun x hnamed hx => ?_)
    obtain ⟨hmem, hkey⟩ := Forest.childNamed_eq_some hnamed
    obtain ⟨hlive, hparent⟩ := hdone.carries.steady.linked.child_parent hmem
    refine hout x hx ((hmoved.nodes.parent hx).symm.trans hparent) name
      (List.mem_append_right _ List.mem_cons_self) ?_
    exact (hdone.carries.keys.keyAt (hup.bound hx) hlive).symm.trans hkey
  · rw [List.mem_append, List.mem_singleton, not_or] at hk
    rw [hone.others k hk.2, hdone.others k hk.1]

variable (writeTime) in
theorem syncEntries_done {entries : List (Bytes × HostEntry)} (ht : NamedTree h hostPath)
    (hentries : ∀ x ∈ entries, h.entryBelow hostPath [x.1] = some x.2)
    (hsub : ∀ name, h.entryBelow hostPath [name] = some .directory →
      Calm h (entryPath hostPath name) syncDirectory)
    (hs : Steady s.nodes s.blocks) (hhost : s.host = h) (hn : s.nodes.live n = true) :
    ∃ s', entries.foldlM (syncEntry writeTime syncDirectory n hostPath) s = .ok s' ∧
      EntriesDone n (entries.map Prod.fst) s s' := by
  refine Outcome.foldlM_total (P := fun done t => EntriesDone n (done.map Prod.fst) s t)
    ⟨hs.carries, fun P _ _ => Moved.refl P n s, fun _ _ => rfl⟩ ?_
  rintro done ⟨name, e⟩ rest t hes hdone
  have he : h.entryBelow hostPath [name] = some e := by
    refine hentries (name, e) ?_
    rw [hes]
    exact List.mem_append_right _ List.mem_cons_self
  obtain ⟨t', hstep, hone⟩ := syncEntry_done writeTime ht he
    (fun hdir => hsub name (hdir ▸ he)) hdone.carries.steady (hdone.carries.host.trans hhost)
    (hdone.live hs hn)
  rw [List.map_append]
  exact ⟨t', hstep, hdone.step hone⟩

theorem live_markChildren (hn : s.nodes.live n = true) :
    (markChildren s n).nodes.live n = true := by
  obtain ⟨a, ha⟩ := Forest.live_iff_valAt.mp hn
  rw [Forest.live_iff_valAt, markChildren_eq, valAt_markAll, ha]
  split
  · exact ⟨_, rfl⟩
  · exact ⟨a, rfl⟩

theorem markChildren_carries (hs : Steady s.nodes s.blocks) (n : Nat) :
    Carries s (markChildren s n) :=
  markAll_carries hs fun _ hc => (hs.linked.child_parent hc).1

theorem syncDirectory_calm (fuel : Nat) (ht : NamedTree h hostPath)
    (hsub : ∀ name, h.entryBelow hostPath [name] = some .directory →
      Calm h (entryPath hostPath name) (vfsSyncDirectoryFromHost writeTime fuel)) :
    Calm h hostPath (vfsSyncDirectoryFromHost writeTime (fuel + 1)) := by
  intro s n hs hhost hn
  have hmark := markChildren_carries hs n
  obtain ⟨t, hloop, hdone⟩ := syncEntries_done writeTime (s := markChildren s n) ht
    (fun x hx => ht.mem_searchAll.mp hx) hsub hmark.steady (hmark.host.trans hhost)
    (live_markChildren hn)
  obtain ⟨s', hsweep, hswept⟩ := sweepChildren_swept hdone.carries.steady n
  refine ⟨s', ?_, (hmark.trans hdone.carries).trans hswept.carries, fun P hup hout => ?_⟩
  · rw [vfsSyncDirectoryFromHost, hhost, if_pos ht.searchable]
    exact Outcome.bind_eq_ok.mpr ⟨t, hloop, Outcome.bind_eq_ok.mpr ⟨s', hsweep, rfl⟩⟩
  · have hmarked : Moved P n s (markChildren s n) := markAll_moved n fun c hc hin =>
      absurd (hs.linked.child_parent hc).2 (hout c hin)
    have hout' : ∀ x, P x → Forest.parentOf (markChildren s n).nodes x ≠ some n := by
      intro x hx
      rw [hmarked.nodes.parent hx]
      exact hout x hx
    have hlisted : Moved P n (markChildren s n) t :=
      hdone.moved P (hmarked.upward hmark hup) fun x hx hparent => absurd hparent (hout' x hx)
    refine (hmarked.trans hlisted).trans (hswept.moved P fun c hc hin => ?_)
    have hparent := (hdone.carries.steady.linked.child_parent hc).2
    rw [hlisted.nodes.parent hin] at hparent
    exact absurd hparent (hout' c hin)

variable (writeTime) in
theorem vfsSyncDirectoryFromHost_calm (fuel : Nat) :
    ∀ hostPath, NamedTree h hostPath → maxPath ≤ hostPath.length + fuel →
      Calm h hostPath (vfsSyncDirectoryFromHost writeTime fuel) := by
  induction fuel with
  | zero =>
    intro hostPath ht hfuel
    have hroom := ht.room
    omega
  | succ fuel ih =>
    intro hostPath ht hfuel
    refine syncDirectory_calm fuel ht fun name he => ih _ (ht.child he) ?_
    rw [ht.entryPath_eq he, List.length_append, List.length_cons]
    omega

end Directories

end ZoraVM.Vfs
