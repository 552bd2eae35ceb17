import ZoraVM.Vfs.Calls
import ZoraVM.Vfs.Inversion

namespace ZoraVM.Vfs

open Foundation

-- The nodes are a tree in which only directories have children; data pointers may dangle.
structure Shape (nodes : Forest Attr) (root : Nat) : Prop where
  tree : Forest.WellFormed nodes root
  root_directory : ∀ {a}, Forest.valAt nodes root = some a → a.isDirectory = true
  leaves : ∀ {n a}, Forest.valAt nodes n = some a → a.isDirectory = false →
    Forest.childrenOf nodes n = []

-- Every data pointer is a live block of one node alone.
structure Sound (nodes : Forest Attr) (blocks : Heap Bytes) (root : Nat) : Prop
    extends Shape nodes root where
  stored : ∀ {n a p}, Forest.valAt nodes n = some a → a.data = some p →
    ∃ b, blocks.get p = some b ∧ a.size ≤ b.length
  unshared : ∀ {n m a b p}, Forest.valAt nodes n = some a → Forest.valAt nodes m = some b →
    a.data = some p → b.data = some p → n = m

-- What is left of it when the sweep of a synchronisation takes a node away with its children.
structure Steady (nodes : Forest Attr) (blocks : Heap Bytes) : Prop where
  linked : Forest.Linked nodes
  stored : ∀ {n a p}, Forest.valAt nodes n = some a → a.data = some p → ∃ b, blocks.get p = some b
  unshared : ∀ {n m a b p}, Forest.valAt nodes n = some a → Forest.valAt nodes m = some b →
    a.data = some p → b.data = some p → n = m

theorem Sound.steady {nodes : Forest Attr} {blocks : Heap Bytes} {root : Nat}
    (h : Sound nodes blocks root) : Steady nodes blocks := by
  refine ⟨h.tree.linked, fun ha hp => ?_, h.unshared⟩
  obtain ⟨b, hb, _⟩ := h.stored ha hp
  exact ⟨b, hb⟩

-- After rmdir has freed the root there is no tree to speak of, and no call that finds a node.
def Consistent (s : VfsState) : Prop :=
  s.nodes.live s.root = true → Sound s.nodes s.blocks s.root

def IsDirectory (nodes : Forest Attr) (n : Nat) : Prop :=
  ∃ a, Forest.valAt nodes n = some a ∧ a.isDirectory = true

variable {nodes : Forest Attr} {blocks blocks' : Heap Bytes} {root n m parent : Nat} {v a : Attr}

theorem IsDirectory.live (h : IsDirectory nodes n) : nodes.live n = true := by
  obtain ⟨a, ha, _⟩ := h
  exact Forest.live_iff_valAt.mpr ⟨a, ha⟩

theorem IsDirectory.link (h : IsDirectory nodes n) (hp : nodes.live parent = true) (v : Attr) :
    IsDirectory (Forest.link nodes parent v) n := by
  obtain ⟨a, ha, hdir⟩ := h
  refine ⟨a, ?_, hdir⟩
  rw [Forest.valAt_link_of_live hp v (Forest.live_iff_valAt.mpr ⟨a, ha⟩), ha]

theorem freeData_none (h : freeData blocks none = .ok blocks') : blocks' = blocks :=
  (Except.ok.inj h).symm

theorem freeData_some {p : Nat} (h : freeData blocks (some p) = .ok blocks') :
    blocks' = blocks.free p := by
  dsimp only [freeData] at h
  split at h
  · exact (Except.ok.inj h).symm
  · cases h

namespace Steady

theorem lt_size (h : Steady nodes blocks) {p : Nat} (ha : Forest.valAt nodes n = some a)
    (hp : a.data = some p) : p < blocks.size := by
  obtain ⟨b, hb⟩ := h.stored ha hp
  exact Heap.lt_size_of_get hb

theorem freed_keeps (h : Steady nodes blocks) (ha : Forest.valAt nodes n = some a)
    (hfree : freeData blocks a.data = .ok blocks') {b : Attr} {p : Nat} (hm : m ≠ n)
    (hb : Forest.valAt nodes m = some b) (hp : b.data = some p) :
    blocks'.get p = blocks.get p := by
  cases hd : a.data with
  | none =>
    rw [hd] at hfree
    rw [freeData_none hfree]
  | some q =>
    rw [hd] at hfree
    rw [freeData_some hfree]
    refine Heap.get_free_of_ne fun hpq => hm ?_
    exact h.unshared hb ha hp (hpq ▸ hd)

theorem freeData_ok (h : Steady nodes blocks) (ha : Forest.valAt nodes n = some a) :
    ∃ blocks', freeData blocks a.data = .ok blocks' := by
  cases hd : a.data with
  | none => exact ⟨blocks, rfl⟩
  | some p =>
    obtain ⟨b, hb⟩ := h.stored ha hd
    exact ⟨blocks.free p, by simp [freeData, Heap.live, hb]⟩

end Steady

namespace Shape

variable {f : Attr → Attr}

theorem link (h : Shape nodes root) (hp : IsDirectory nodes parent) (v : Attr) :
    Shape (Forest.link nodes parent v) root := by
  have hl := hp.live
  refine ⟨h.tree.link hl v, ?_, ?_⟩
  · intro a ha
    rw [Forest.valAt_link_of_live hl v h.tree.root_live] at ha
    exact h.root_directory ha
  · intro n a ha hdir
    rw [Forest.valAt_link hl] at ha
    rw [Forest.childrenOf_link hl]
    by_cases hn : n = nodes.size
    · subst hn
      rw [if_neg (Nat.ne_of_gt (Forest.live_lt_size hl)), Forest.childrenOf_size]
    · rw [if_neg hn] at ha
      have hnp : n ≠ parent := by
        rintro rfl
        obtain ⟨b, hb, hbdir⟩ := hp
        obtain rfl := Option.some.inj (ha.symm.trans hb)
        exact Bool.false_ne_true (hdir.symm.trans hbdir)
      rw [if_neg hnp]
      exact h.leaves ha hdir

theorem unlink (h : Shape nodes root) (hleaf : Forest.childrenOf nodes n = []) (hn : n ≠ root) :
    Shape (Forest.unlink nodes n) root := by
  refine ⟨h.tree.unlink hleaf hn, ?_, ?_⟩
  · intro a ha
    rw [Forest.valAt_unlink, if_neg hn.symm] at ha
    exact h.root_directory ha
  · intro m a ha hdir
    rw [Forest.valAt_unlink] at ha
    by_cases hm : m = n
    · simp [hm] at ha
    · rw [if_neg hm] at ha
      rw [h.tree.childrenOf_unlink hm, h.leaves ha hdir]
      rfl

theorem update (h : Shape nodes root) (n : Nat)
    (hdir : ∀ a, Forest.valAt nodes n = some a → (f a).isDirectory = a.isDirectory) :
    Shape (Forest.update nodes n f) root := by
  have hval : ∀ {m b}, Forest.valAt (Forest.update nodes n f) m = some b →
      ∃ a, Forest.valAt nodes m = some a ∧ b.isDirectory = a.isDirectory := by
    intro m b hb
    rw [Forest.valAt_update] at hb
    by_cases hm : m = n
    · rw [if_pos hm] at hb
      obtain ⟨a, ha, rfl⟩ := Option.map_eq_some_iff.mp hb
      exact ⟨a, hm ▸ ha, hdir a ha⟩
    · rw [if_neg hm] at hb
      exact ⟨b, hb, rfl⟩
  refine ⟨h.tree.update n f, ?_, ?_⟩
  · intro b hb
    obtain ⟨a, ha, hsame⟩ := hval hb
    rw [hsame]
    exact h.root_directory ha
  · intro m b hb hfile
    obtain ⟨a, ha, hsame⟩ := hval hb
    rw [Forest.childrenOf_update]
    exact h.leaves ha (hsame ▸ hfile)

end Shape

namespace Sound

theorem link (h : Sound nodes blocks root) (hp : IsDirectory nodes parent) (hv : v.data = none) :
    Sound (Forest.link nodes parent v) blocks root := by
  have hl := hp.live
  refine ⟨h.toShape.link hp v, ?_, ?_⟩
  · intro n a p ha hdata
    rw [Forest.valAt_link hl] at ha
    split at ha
    · obtain rfl := Option.some.inj ha
      rw [hv] at hdata
      cases hdata
    · exact h.stored ha hdata
  · intro n m a b p ha hb hda hdb
    rw [Forest.valAt_link hl] at ha hb
    split at ha
    · obtain rfl := Option.some.inj ha
      rw [hv] at hda
      cases hda
    · split at hb
      · obtain rfl := Option.some.inj hb
        rw [hv] at hdb
        cases hdb
      · exact h.unshared ha hb hda hdb

theorem unlink (h : Sound nodes blocks root) (hleaf : Forest.childrenOf nodes n = [])
    (hn : n ≠ root)
    (hkeep : ∀ {m a p}, m ≠ n → Forest.valAt nodes m = some a → a.data = some p →
      blocks'.get p = blocks.get p) :
    Sound (Forest.unlink nodes n) blocks' root := by
  refine ⟨h.toShape.unlink hleaf hn, ?_, ?_⟩
  · intro m a p ha hdata
    rw [Forest.valAt_unlink] at ha
    by_cases hm : m = n
    · simp [hm] at ha
    · rw [if_neg hm] at ha
      rw [hkeep hm ha hdata]
      exact h.stored ha hdata
  · intro m k a b p ha hb hda hdb
    rw [Forest.valAt_unlink] at ha hb
    by_cases hm : m = n
    · simp [hm] at ha
    · by_cases hk : k = n
      · simp [hk] at hb
      · rw [if_neg hm] at ha
        rw [if_neg hk] at hb
        exact h.unshared ha hb hda hdb

theorem update (h : Sound nodes blocks root) (ha : Forest.valAt nodes n = some a)
    {f : Attr → Attr} (hdir : (f a).isDirectory = a.isDirectory)
    (hstored : ∀ {p}, (f a).data = some p → ∃ b, blocks'.get p = some b ∧ (f a).size ≤ b.length)
    (hown : ∀ {m b p}, m ≠ n → Forest.valAt nodes m = some b → b.data = some p →
      (f a).data ≠ some p ∧ blocks'.get p = blocks.get p) :
    Sound (Forest.update nodes n f) blocks' root := by
  have hval : ∀ {m b}, Forest.valAt (Forest.update nodes n f) m = some b →
      (m = n ∧ b = f a) ∨ (m ≠ n ∧ Forest.valAt nodes m = some b) := by
    intro m b hb
    rw [Forest.valAt_update] at hb
    by_cases hm : m = n
    · rw [if_pos hm, ha] at hb
      exact .inl ⟨hm, (Option.some.inj hb).symm⟩
    · rw [if_neg hm] at hb
      exact .inr ⟨hm, hb⟩
  refine ⟨h.toShape.update n fun b hb => ?_, ?_, ?_⟩
  · obtain rfl := Option.some.inj (ha.symm.trans hb)
    exact hdir
  · intro m b p hb hdata
    rcases hval hb with ⟨rfl, rfl⟩ | ⟨hm, hb⟩
    · exact hstored hdata
    · rw [(hown hm hb hdata).2]
      exact h.stored hb hdata
  · intro m k b c p hb hc hdb hdc
    rcases hval hb with ⟨hm, rfl⟩ | ⟨hm, hb'⟩ <;> rcases hval hc with ⟨hk, rfl⟩ | ⟨hk, hc'⟩
    · exact hm.trans hk.symm
    · exact absurd hdb (hown hk hc' hdc).1
    · exact absurd hdc (hown hm hb' hdb).1
    · exact h.unshared hb' hc' hdb hdc

theorem update_attr (h : Sound nodes blocks root) (ha : Forest.valAt nodes n = some a)
    {f : Attr → Attr} (hdir : (f a).isDirectory = a.isDirectory) (hdata : (f a).data = a.data)
    (hsize : (f a).size = a.size) : Sound (Forest.update nodes n f) blocks root := by
  refine h.update ha hdir ?_ ?_
  · intro p hp
    rw [hdata] at hp
    rw [hsize]
    exact h.stored ha hp
  · intro m b p hm hb hp
    refine ⟨fun hfa => hm ?_, rfl⟩
    rw [hdata] at hfa
    exact h.unshared hb ha hp hfa

theorem lt_size (h : Sound nodes blocks root) {p : Nat} (ha : Forest.valAt nodes n = some a)
    (hp : a.data = some p) : p < blocks.size := h.steady.lt_size ha hp

theorem freed_keeps (h : Sound nodes blocks root) (ha : Forest.valAt nodes n = some a)
    (hfree : freeData blocks a.data = .ok blocks') {b : Attr} {p : Nat} (hm : m ≠ n)
    (hb : Forest.valAt nodes m = some b) (hp : b.data = some p) :
    blocks'.get p = blocks.get p := h.steady.freed_keeps ha hfree hm hb hp

theorem freeData_ok (h : Sound nodes blocks root) (ha : Forest.valAt nodes n = some a) :
    ∃ blocks', freeData blocks a.data = .ok blocks' := h.steady.freeData_ok ha

theorem size_freeData {p : Option Nat} (h : freeData blocks p = .ok blocks') :
    blocks'.size = blocks.size := by
  cases p with
  | none => rw [freeData_none h]
  | some p => rw [freeData_some h, Heap.size_free]

theorem store (h : Sound nodes blocks root) (ha : Forest.valAt nodes n = some a)
    (hfree : freeData blocks a.data = .ok blocks') {b : Bytes} {size : Nat}
    (hsize : size ≤ b.length) :
    Sound (Forest.update nodes n (withData (some blocks'.size) size)) (blocks'.alloc b) root := by
  refine h.update ha rfl ?_ ?_
  · intro p hp
    obtain rfl := Option.some.inj hp
    exact ⟨b, Heap.get_alloc_self _ _, hsize⟩
  · intro m c p hm hc hp
    have hne : p ≠ blocks'.size := by
      rw [size_freeData hfree]
      exact Nat.ne_of_lt (h.lt_size hc hp)
    refine ⟨fun hfa => hne (Option.some.inj hfa).symm, ?_⟩
    rw [Heap.get_alloc_of_ne hne, h.freed_keeps ha hfree hm hc hp]

theorem drop (h : Sound nodes blocks root) (ha : Forest.valAt nodes n = some a)
    (hfree : freeData blocks a.data = .ok blocks') (size : Nat) :
    Sound (Forest.update nodes n (withData none size)) blocks' root := by
  refine h.update ha rfl ?_ ?_
  · intro p hp
    cases hp
  · intro m c p hm hc hp
    refine ⟨fun hfa => ?_, h.freed_keeps ha hfree hm hc hp⟩
    cases hfa

end Sound

section Calls

variable {s s' : VfsState}

theorem sound_addChild (h : Sound s.nodes s.blocks s.root) (hp : IsDirectory s.nodes parent)
    (hv : v.data = none) :
    Sound (vfsAddChild s parent v).nodes (vfsAddChild s parent v).blocks
      (vfsAddChild s parent v).root :=
  h.link hp hv

theorem sound_addNode (h : Sound s.nodes s.blocks s.root) (hp : IsDirectory s.nodes parent)
    (hv : v.data = none) :
    Sound (addNode s parent v).nodes (addNode s parent v).blocks (addNode s parent v).root := by
  rw [addNode_eq]
  exact h.link hp hv

theorem sound_loaded (h : Sound s.nodes s.blocks s.root) (ha : Forest.valAt s.nodes n = some a)
    (hnone : a.data = none) (content : Bytes) :
    Sound (loaded s n content).nodes (loaded s n content).blocks (loaded s n content).root := by
  have hfree : freeData s.blocks a.data = .ok s.blocks := by
    rw [hnone]
    rfl
  exact h.store ha hfree (by simp)

theorem valAt_storeData (ha : Forest.valAt s.nodes n = some a) (content : Option Bytes) :
    Forest.valAt (storeData s n blocks content).nodes n =
      some (withData (content.map fun _ => blocks.size) ((content.map List.length).getD 0) a) := by
  cases content <;> simp [storeData, updateNode, Forest.valAt_update_self, ha]

theorem sound_storeData (h : Sound s.nodes s.blocks s.root) (ha : Forest.valAt s.nodes n = some a)
    (hfree : freeData s.blocks a.data = .ok blocks) (content : Option Bytes) :
    Sound (storeData s n blocks content).nodes (storeData s n blocks content).blocks s.root := by
  cases content with
  | some b => exact h.store ha hfree (Nat.le_refl _)
  | none => exact h.drop ha hfree 0

theorem written_eq (s : VfsState) (n : Nat) (blocks : Heap Bytes) (content : Option Bytes) :
    written s n blocks content =
      { updateNode (storeData s n blocks content) n (touched s.clock) with
        host := (written s n blocks content).host } := by
  unfold written
  by_cases hr : s.hostRootDirectory = []
  · simp [hr]
  · simp only [if_neg hr, vfsSyncToHost_eq]

theorem sound_written (h : Sound s.nodes s.blocks s.root) (ha : Forest.valAt s.nodes n = some a)
    (hfree : freeData s.blocks a.data = .ok blocks) (content : Option Bytes) :
    Sound (written s n blocks content).nodes (written s n blocks content).blocks
      (written s n blocks content).root := by
  have hstored := sound_storeData h ha hfree content
  have hroot : (storeData s n blocks content).root = s.root := by cases content <;> rfl
  rw [written_eq]
  exact hroot ▸ hstored.update_attr (valAt_storeData ha content) rfl rfl rfl

theorem isDirectory_fresh (hp : IsDirectory nodes parent) {a : Attr}
    (hdir : a.isDirectory = true) : IsDirectory (Forest.link nodes parent a) nodes.size :=
  ⟨a, by rw [Forest.valAt_link hp.live, if_pos rfl], hdir⟩

theorem load_induct {P : VfsState → Prop}
    (hlink : ∀ {s parent v}, P s → IsDirectory s.nodes parent → v.data = none →
      (v.isDirectory = true → v.hostPath = none) → P (vfsAddChild s parent v))
    {fuel : Nat} {path : Bytes} (h₀ : P s) (hn : IsDirectory s.nodes n)
    (h : vfsLoadHostDirectory fuel s n path = .ok s') :
    P s' ∧ ∀ k, IsDirectory s.nodes k → IsDirectory s'.nodes k := by
  induction fuel generalizing s n path s' with
  | zero => cases h
  | succ fuel ih =>
    refine Outcome.foldlM_ok (P := fun t => P t ∧ ∀ k, IsDirectory s.nodes k → IsDirectory t.nodes k)
      ?_ ⟨h₀, fun _ hk => hk⟩ h
    rintro t ⟨name, e⟩ t' _ ⟨ht, hkeep⟩ hstep
    have hdir := hkeep n hn
    cases e with
    | file content =>
      obtain rfl := Except.ok.inj hstep
      refine ⟨hlink ht hdir rfl fun hmade => ?_, fun k hk => (hkeep k hk).link hdir.live _⟩
      cases hmade
    | directory =>
      have hmade := hlink (v := vfsCreateDirectoryNode t name) ht hdir rfl fun _ => rfl
      have hfresh : IsDirectory (vfsAddChild t n (vfsCreateDirectoryNode t name)).nodes
          t.nodes.size := isDirectory_fresh hdir rfl
      obtain ⟨ht', hkeep'⟩ := ih hmade hfresh hstep
      exact ⟨ht', fun k hk => hkeep' k ((hkeep k hk).link hdir.live _)⟩

theorem isDirectory_of_find {path : Bytes} (h : findDirectory s path = .ok (some n)) :
    IsDirectory s.nodes n := (findDirectory_ok_some h).2.2

theorem findDirectory_total (h : Sound s.nodes s.blocks s.root) (dir : Bytes) :
    ∃ found, findDirectory s dir = .ok found := by
  have hfind : vfsFindNode s dir = .ok (Forest.walk Attr.name s.nodes s.root (pathComponents dir)) :=
    vfsFindNode_of_live h.tree.root_live
  cases hw : Forest.walk Attr.name s.nodes s.root (pathComponents dir) with
  | none => exact ⟨none, by simp [findDirectory, hfind, hw, bind, Except.bind]⟩
  | some k =>
    have hlive := h.tree.live_walk h.tree.root_live hw
    obtain ⟨e, he⟩ := Forest.live_iff_valAt.mp hlive
    exact ⟨_, by simp [findDirectory, hfind, hw, nodeAt_of_valAt he, bind, Except.bind]; rfl⟩

theorem findDirectory_of_walk {path : Bytes} (hlive : s.nodes.live s.root = true)
    (hwalk : Forest.walk Attr.name s.nodes s.root (pathComponents path) = some n)
    (hn : IsDirectory s.nodes n) : findDirectory s path = .ok (some n) := by
  obtain ⟨a, ha, hdir⟩ := hn
  have hfind : vfsFindNode s path = .ok (some n) := by rw [vfsFindNode_of_live hlive, hwalk]
  simp [findDirectory, hfind, nodeAt_of_valAt ha, hdir, bind, Except.bind]

theorem consistent_mkdir {path : Bytes} {r : Int} (h : Consistent s)
    (hcall : vfsMkdir s path = .ok (r, s')) : Consistent s' := by
  rcases vfsMkdir_cases hcall with rfl | ⟨_, _, _, _, hfind, _, _, rfl⟩
  · exact h
  · have hs := h (findDirectory_ok_some hfind).1
    exact fun _ => sound_addNode hs (isDirectory_of_find hfind) rfl

-- A mount makes its directory if it has to and adds nodes below it. `Q` is what holds while it does.
theorem mount_induct {P Q : VfsState → Prop} {path hostPath : Bytes} {r : Int} (h : P s)
    (hmkdir : ∀ {t r}, vfsMkdir s path = .ok (r, t) → P t)
    (hstart : ∀ {t}, P t → t.nodes.live t.root = true → Q (preparedHost t hostPath))
    (hlink : ∀ {u parent v}, Q u → IsDirectory u.nodes parent → v.data = none →
      (v.isDirectory = true → v.hostPath = none) → Q (vfsAddChild u parent v))
    (hdone : ∀ {t}, Q t → P t) (hcall : vfsMountPersistent s path hostPath = .ok (r, s')) :
    P s' := by
  obtain ⟨found, t, hpoint, hrest⟩ := vfsMountPersistent_cases hcall
  obtain ⟨hmade, hdir⟩ := mountPoint_cases hpoint
  have ht : P t := by
    rcases hmade with rfl | ⟨r, _, hmade⟩
    · exact h
    · exact hmkdir hmade
  rcases hrest with ⟨_, rfl⟩ | ⟨n, hn, hload⟩
  · exact ht
  · have hfind := hdir n hn
    have hpoint : IsDirectory (preparedHost t hostPath).nodes n := isDirectory_of_find hfind
    have hprepared := hstart ht (findDirectory_ok_some hfind).1
    exact hdone (load_induct hlink hprepared hpoint hload).1

theorem consistent_mount {path hostPath : Bytes} {r : Int} (h : Consistent s)
    (hcall : vfsMountPersistent s path hostPath = .ok (r, s')) : Consistent s' :=
  mount_induct (Q := fun t => Sound t.nodes t.blocks t.root) h (consistent_mkdir h)
    (fun ht hlive => ht hlive) (fun hu hdir hv _ => sound_addChild hu hdir hv) (fun hs _ => hs) hcall

theorem vfsStep_eq {c : VfsCall} (h : vfsStep s c = some s') : ∃ r, vfsCall s c = .ok (r, s') := by
  unfold vfsStep at h
  split at h
  · next r t ht => exact ⟨r, Option.some.inj h ▸ ht⟩
  · cases h

theorem consistent_createFile {path : Bytes} {r : Int} (h : Consistent s)
    (hcall : vfsCreateFile s path = .ok (r, s')) : Consistent s' := by
  rcases vfsCreateFile_cases hcall with ⟨_, rfl⟩ | ⟨_, _, _, _, hfind, _, rfl⟩
  · exact h
  · have hs := h (findDirectory_ok_some hfind).1
    exact fun _ => sound_addNode hs (isDirectory_of_find hfind) rfl

theorem consistent_createSymlink {link target : Bytes} {r : Int} (h : Consistent s)
    (hcall : vfsCreateSymlink s link target = .ok (r, s')) : Consistent s' := by
  rcases vfsCreateSymlink_cases hcall with rfl | ⟨_, hfind, rfl⟩
  · exact h
  · have hs := h (findDirectory_ok_some hfind).1
    exact fun _ => sound_addChild hs (isDirectory_of_find hfind) rfl

theorem consistent_deleteFile {path : Bytes} {r : Int} (h : Consistent s)
    (hcall : vfsDeleteFile s path = .ok (r, s')) : Consistent s' := by
  rcases vfsDeleteFile_cases hcall with ⟨_, rfl⟩ | ⟨n, a, blocks, hfind, ha, hfile, hfree, _, rfl⟩
  · exact h
  · have hs := h (vfsFindNode_ok hfind).1
    have hne : n ≠ s.root := by
      rintro rfl
      exact Bool.false_ne_true (hfile.symm.trans (hs.root_directory ha))
    exact fun _ => hs.unlink (hs.leaves ha hfile) hne fun hm hb hp =>
      hs.freed_keeps ha hfree hm hb hp

theorem consistent_rmdir {path : Bytes} {r : Int} (h : Consistent s)
    (hcall : vfsRmdir s path = .ok (r, s')) : Consistent s' := by
  rcases vfsRmdir_cases hcall with ⟨_, rfl⟩ | ⟨n, a, hfind, ha, hdir, hleaf, _, rfl⟩
  · exact h
  · have hs := h (vfsFindNode_ok hfind).1
    intro hlive
    have hne : s.root ≠ n := (Forest.live_unlink.mp hlive).1
    exact hs.unlink hleaf hne.symm fun _ _ _ => rfl

theorem consistent_writeFile {path : Bytes} {data : Buffer} {size : Nat} {r : Int}
    (h : Consistent s) (hcall : vfsWriteFile s path data size = .ok (r, s')) : Consistent s' := by
  rcases vfsWriteFile_cases hcall with
    ⟨_, rfl⟩ | ⟨n, a, blocks, content, hfind, ha, _, _, hfree, _, _, rfl⟩
  · exact h
  · exact fun _ => sound_written (h (vfsFindNode_ok hfind).1) ha hfree content

theorem consistent_readFile {path : Bytes} {found : Option (Option Nat × Nat)}
    (h : Consistent s) (hread : vfsReadFile s path = .ok (found, s')) : Consistent s' := by
  rcases vfsReadFile_cases hread with ⟨_, rfl⟩ | ⟨n, a, hfind, ha, _, _, hload⟩
  · exact h
  · rcases hload with ⟨_, _, _, rfl⟩ | ⟨hnone, content, _, _, rfl⟩
    · exact h
    · exact fun _ => sound_loaded (h (vfsFindNode_ok hfind).1) ha hnone content

theorem consistent_chmod {path : Bytes} {mode : BitVec 32} {r : Int} (h : Consistent s)
    (hcall : vfsChmod s path mode = .ok (r, s')) : Consistent s' := by
  rcases vfsChmod_cases hcall with rfl | ⟨n, a, hfind, ha, _, rfl⟩
  · exact h
  · have hs := h (vfsFindNode_ok hfind).1
    exact fun _ => hs.update_attr (f := withMode mode s.clock) ha rfl rfl rfl

theorem consistent_chown {path : Bytes} {owner group : Option Bytes} {r : Int} (h : Consistent s)
    (hcall : vfsChown s path owner group = .ok (r, s')) : Consistent s' := by
  rcases vfsChown_cases hcall with rfl | ⟨n, hfind, _, rfl⟩
  · exact h
  · obtain ⟨hl, hwalk⟩ := vfsFindNode_ok hfind
    have hs := h hl
    obtain ⟨a, ha⟩ := Forest.live_iff_valAt.mp (hs.tree.live_walk hl hwalk)
    exact fun _ => hs.update_attr (f := withOwner owner group s.clock) ha rfl rfl rfl

theorem consistent_chdir {path : Bytes} {r : Int} (h : Consistent s)
    (hcall : vfsChdir s path = .ok (r, s')) : Consistent s' := by
  rcases vfsChdir_cases hcall with rfl | ⟨_, rfl⟩
  · exact h
  · exact h

theorem consistent_step {c : VfsCall} (h : Consistent s) (hstep : vfsStep s c = some s') :
    Consistent s' := by
  obtain ⟨r, hcall⟩ := vfsStep_eq hstep
  cases c with
  | mkdir path => exact consistent_mkdir h hcall
  | createFile path => exact consistent_createFile h hcall
  | createSymlink link target => exact consistent_createSymlink h hcall
  | deleteFile path => exact consistent_deleteFile h hcall
  | rmdir path => exact consistent_rmdir h hcall
  | writeFile path data => exact consistent_writeFile h hcall
  | readFile path =>
    obtain ⟨⟨found, t⟩, hread, hrest⟩ := Outcome.bind_eq_ok.mp hcall
    obtain ⟨rfl, rfl⟩ := Prod.mk.inj (Except.ok.inj hrest)
    exact consistent_readFile h hread
  | chmod path mode => exact consistent_chmod h hcall
  | chown path owner group => exact consistent_chown h hcall
  | chdir path => exact consistent_chdir h hcall
  | mountPersistent vmPath hostPath => exact consistent_mount h hcall
  | setHostRoot hostRoot =>
    obtain ⟨rfl, rfl⟩ := Prod.mk.inj (Except.ok.inj hcall)
    exact h
  | identify identity =>
    obtain ⟨rfl, rfl⟩ := Prod.mk.inj (Except.ok.inj hcall)
    exact h
  | hostChange entries mayRead mayWrite =>
    obtain ⟨rfl, rfl⟩ := Prod.mk.inj (Except.ok.inj hcall)
    exact h
  | wait clock =>
    obtain ⟨rfl, rfl⟩ := Prod.mk.inj (Except.ok.inj hcall)
    exact h

end Calls

section Reach

variable {s : VfsState} {allowed : VfsState → VfsCall → Prop} {calls : List VfsCall}

theorem vfsInit_induct {P : VfsState → Prop} {junk : Attr} {host : Host} {clock : Nat}
    {s₀ : VfsState} (hblank : P (blankVfs junk host clock))
    (hmkdir : ∀ s s' path r, path ∈ initialDirectories → P s → vfsMkdir s path = .ok (r, s') → P s')
    (h : vfsInit junk host clock = .ok s₀) : P s₀ := by
  refine Outcome.foldlM_ok ?_ hblank h
  intro s path s' hin hs hcall
  cases hmade : vfsMkdir s path with
  | error e => simp [hmade] at hcall
  | ok made =>
    obtain ⟨r, t⟩ := made
    obtain rfl : t = s' := by simpa [hmade] using hcall
    exact hmkdir s t path r hin hs hmade

theorem ReachableBy.invariant {P : VfsState → Prop}
    (hblank : ∀ junk host clock, P (blankVfs junk host clock))
    (hmkdir : ∀ s s' path r, path ∈ initialDirectories → P s → vfsMkdir s path = .ok (r, s') → P s')
    (hstep : ∀ s c s', P s → allowed s c → vfsStep s c = some s' → P s')
    (h : ReachableBy allowed calls s) : P s := by
  obtain ⟨junk, host, clock, s₀, hinit, hrun⟩ := h
  exact hrun.invariant (vfsInit_induct (hblank junk host clock) hmkdir hinit) hstep

theorem sound_blank (junk : Attr) (host : Host) (clock : Nat) :
    Sound (blankVfs junk host clock).nodes (blankVfs junk host clock).blocks 0 := by
  have hval : ∀ {n a}, Forest.valAt (blankVfs junk host clock).nodes n = some a →
      n = 0 ∧ a = rootNode junk := by
    intro n a ha
    have hcase := Forest.valAt_single (rootNode junk) n
    by_cases hn : n = 0
    · rw [if_pos hn] at hcase
      exact ⟨hn, Option.some.inj (ha.symm.trans hcase)⟩
    · rw [if_neg hn] at hcase
      cases ha.symm.trans hcase
  refine ⟨⟨Forest.wellFormed_single _, ?_, ?_⟩, ?_, ?_⟩
  · intro a ha
    obtain ⟨_, rfl⟩ := hval ha
    rfl
  · intro n a _ _
    exact Forest.childrenOf_single _ n
  · intro n a p ha hdata
    obtain ⟨_, rfl⟩ := hval ha
    cases hdata
  · intro n m a b p ha hb _ _
    exact (hval ha).1.trans (hval hb).1.symm

theorem ReachableBy.consistent (h : ReachableBy allowed calls s) : Consistent s := by
  refine h.invariant (fun junk host clock _ => sound_blank junk host clock) ?_ ?_
  · exact fun s s' path r _ hs hcall => consistent_mkdir hs hcall
  · exact fun s c s' hs _ hstep => consistent_step hs hstep

end Reach

end ZoraVM.Vfs
