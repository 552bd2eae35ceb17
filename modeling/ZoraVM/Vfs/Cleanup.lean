import ZoraVM.Foundation.Teardown
import ZoraVM.Vfs.TreeShape

namespace ZoraVM.Vfs

open Foundation

section Source

-- host_path and symlink_target are values here: neither free(host_path) nor the leak of the other shows.
def vfsCleanupNode (fuel : Nat) (m : Forest Attr × Heap Bytes) (n : Nat) :
    Outcome (Forest Attr × Heap Bytes) :=
  Forest.tearDown (fun a blocks => freeData blocks a.data) fuel m n

def vfsCleanup (fuel : Nat) (s : VfsState) : Outcome (Forest Attr × Heap Bytes) :=
  vfsCleanupNode fuel (s.nodes, s.blocks) s.root

end Source

-- Every block is some node's, and a directory has none.
structure LeakFree (nodes : Forest Attr) (blocks : Heap Bytes) : Prop where
  owned : ∀ {p}, blocks.live p = true → ∃ n a, Forest.valAt nodes n = some a ∧ a.data = some p
  bare : ∀ {n a}, Forest.valAt nodes n = some a → a.isDirectory = true → a.data = none

section Changes

variable {nodes : Forest Attr} {blocks blocks' : Heap Bytes} {n p parent : Nat} {a v : Attr}

theorem get_freeData {data : Option Nat} (hfree : freeData blocks data = .ok blocks')
    (hp : data ≠ some p) : blocks'.get p = blocks.get p := by
  cases data with
  | none => rw [freeData_none hfree]
  | some q =>
    have hne : p ≠ q := fun hpq => hp (congrArg some hpq.symm)
    rw [freeData_some hfree, Heap.get_free_of_ne hne]

theorem live_freeData {data : Option Nat} (hfree : freeData blocks data = .ok blocks')
    (hp : blocks'.live p = true) : data ≠ some p ∧ blocks.live p = true := by
  cases data with
  | none =>
    obtain rfl := freeData_none hfree
    exact ⟨Option.some_ne_none p ∘ Eq.symm, hp⟩
  | some q =>
    obtain rfl := freeData_some hfree
    have hne : p ≠ q := by
      rintro rfl
      rw [Heap.live, Heap.get_free_self] at hp
      cases hp
    rw [Heap.live, Heap.get_free_of_ne hne] at hp
    exact ⟨fun heq => hne (Option.some.inj heq).symm, hp⟩

theorem live_alloc {b : Bytes} (hp : (blocks.alloc b).live p = true) :
    p = blocks.size ∨ blocks.live p = true := by
  by_cases hsize : p = blocks.size
  · exact .inl hsize
  · rw [Heap.live, Heap.get_alloc_of_ne hsize] at hp
    exact .inr hp

namespace LeakFree

theorem link (h : LeakFree nodes blocks) (hparent : nodes.live parent = true) (hv : v.data = none) :
    LeakFree (Forest.link nodes parent v) blocks := by
  refine ⟨fun hp => ?_, fun {n a} ha hdir => ?_⟩
  · obtain ⟨n, a, ha, hdata⟩ := h.owned hp
    refine ⟨n, a, ?_, hdata⟩
    rw [Forest.valAt_link_of_live hparent v (Forest.live_iff_valAt.mpr ⟨a, ha⟩), ha]
  · rw [Forest.valAt_link hparent] at ha
    split at ha
    · obtain rfl := Option.some.inj ha
      exact hv
    · exact h.bare ha hdir

theorem unlink (h : LeakFree nodes blocks) (ha : Forest.valAt nodes n = some a)
    (hfree : freeData blocks a.data = .ok blocks') : LeakFree (Forest.unlink nodes n) blocks' := by
  refine ⟨fun hp => ?_, fun {m b} hb hdir => ?_⟩
  · obtain ⟨hother, hlive⟩ := live_freeData hfree hp
    obtain ⟨m, b, hb, hdata⟩ := h.owned hlive
    have hm : m ≠ n := by
      rintro rfl
      obtain rfl := Option.some.inj (ha.symm.trans hb)
      exact hother hdata
    exact ⟨m, b, by rw [Forest.valAt_unlink, if_neg hm, hb], hdata⟩
  · rw [Forest.valAt_unlink] at hb
    split at hb
    · cases hb
    · exact h.bare hb hdir

theorem update (h : LeakFree nodes blocks) (ha : Forest.valAt nodes n = some a) {f : Attr → Attr}
    (hdir : (f a).isDirectory = true → (f a).data = none)
    (howned : ∀ p, blocks'.live p = true →
      (f a).data = some p ∨ (a.data ≠ some p ∧ blocks.live p = true)) :
    LeakFree (Forest.update nodes n f) blocks' := by
  have hself : Forest.valAt (Forest.update nodes n f) n = some (f a) := by
    rw [Forest.valAt_update_self, ha]
    rfl
  refine ⟨fun {p} hp => ?_, fun {m b} hb hbdir => ?_⟩
  · rcases howned p hp with hnew | ⟨hother, hlive⟩
    · exact ⟨n, f a, hself, hnew⟩
    · obtain ⟨m, b, hb, hdata⟩ := h.owned hlive
      have hm : m ≠ n := by
        rintro rfl
        obtain rfl := Option.some.inj (ha.symm.trans hb)
        exact hother hdata
      exact ⟨m, b, by rw [Forest.valAt_update_of_ne f hm, hb], hdata⟩
  · by_cases hm : m = n
    · subst hm
      obtain rfl := Option.some.inj (hself.symm.trans hb)
      exact hdir hbdir
    · rw [Forest.valAt_update_of_ne f hm] at hb
      exact h.bare hb hbdir

theorem update_attr (h : LeakFree nodes blocks) (ha : Forest.valAt nodes n = some a) {f : Attr → Attr}
    (hdir : (f a).isDirectory = a.isDirectory) (hdata : (f a).data = a.data) :
    LeakFree (Forest.update nodes n f) blocks := by
  refine h.update ha (fun hd => ?_) fun p hp => ?_
  · rw [hdata]
    exact h.bare ha (hdir.symm.trans hd)
  · by_cases hown : a.data = some p
    · exact .inl (hdata.trans hown)
    · exact .inr ⟨hown, hp⟩

theorem replace (h : LeakFree nodes blocks) (ha : Forest.valAt nodes n = some a)
    (hfile : a.isDirectory = false) (hfree : freeData blocks a.data = .ok blocks') (b : Bytes)
    (size : Nat) :
    LeakFree (Forest.update nodes n (withData (some blocks'.size) size)) (blocks'.alloc b) := by
  refine h.update ha (fun hd => ?_) fun p hp => ?_
  · exact absurd (hfile.symm.trans hd) Bool.false_ne_true
  · rcases live_alloc hp with rfl | hp
    · exact .inl rfl
    · exact .inr (live_freeData hfree hp)

theorem storeData {s : VfsState} (h : LeakFree s.nodes s.blocks) (ha : Forest.valAt s.nodes n = some a)
    (hfile : a.isDirectory = false) (hfree : freeData s.blocks a.data = .ok blocks)
    (content : Option Bytes) :
    LeakFree (storeData s n blocks content).nodes (storeData s n blocks content).blocks := by
  cases content with
  | some b => exact h.replace ha hfile hfree b b.length
  | none => exact h.update ha (fun _ => rfl) fun p hp => .inr (live_freeData hfree hp)

end LeakFree

end Changes

section Steps

variable {s s' : VfsState}

theorem leakFree_addNode {parent : Nat} {v : Attr} (h : LeakFree s.nodes s.blocks)
    (hparent : IsDirectory s.nodes parent) (hv : v.data = none) :
    LeakFree (addNode s parent v).nodes (addNode s parent v).blocks := by
  rw [addNode_eq]
  exact h.link hparent.live hv

theorem leakFree_written {n : Nat} {a : Attr} {blocks : Heap Bytes} (h : LeakFree s.nodes s.blocks)
    (ha : Forest.valAt s.nodes n = some a) (hfile : a.isDirectory = false)
    (hfree : freeData s.blocks a.data = .ok blocks) (content : Option Bytes) :
    LeakFree (written s n blocks content).nodes (written s n blocks content).blocks := by
  rw [written_eq]
  exact (h.storeData ha hfile hfree content).update_attr (valAt_storeData ha content) rfl rfl

theorem leakFree_mkdir {path : Bytes} {r : Int} (h : LeakFree s.nodes s.blocks)
    (hcall : vfsMkdir s path = .ok (r, s')) : LeakFree s'.nodes s'.blocks := by
  rcases vfsMkdir_cases hcall with rfl | ⟨_, _, _, _, hfind, _, _, rfl⟩
  · exact h
  · exact leakFree_addNode h (isDirectory_of_find hfind) rfl

theorem leakFree_readFile {path : Bytes} {found : Option (Option Nat × Nat)}
    (h : LeakFree s.nodes s.blocks)
    (hread : vfsReadFile s path = .ok (found, s')) : LeakFree s'.nodes s'.blocks := by
  rcases vfsReadFile_cases hread with ⟨_, rfl⟩ | ⟨n, a, _, ha, hfile, _, hload⟩
  · exact h
  · rcases hload with ⟨_, _, _, rfl⟩ | ⟨hnone, content, _, _, rfl⟩
    · exact h
    · have hfree : freeData s.blocks a.data = .ok s.blocks := by
        rw [hnone]
        rfl
      exact h.replace ha hfile hfree _ _

theorem leakFree_step {c : VfsCall} (h : LeakFree s.nodes s.blocks) (hstep : vfsStep s c = some s') :
    LeakFree s'.nodes s'.blocks := by
  obtain ⟨r, hcall⟩ := vfsStep_eq hstep
  cases c with
  | mkdir path => exact leakFree_mkdir h hcall
  | createFile path =>
    rcases vfsCreateFile_cases hcall with ⟨_, rfl⟩ | ⟨_, _, _, _, hfind, _, rfl⟩
    · exact h
    · exact leakFree_addNode h (isDirectory_of_find hfind) rfl
  | createSymlink link target =>
    rcases vfsCreateSymlink_cases hcall with rfl | ⟨_, hfind, rfl⟩
    · exact h
    · exact h.link (isDirectory_of_find hfind).live rfl
  | deleteFile path =>
    rcases vfsDeleteFile_cases hcall with ⟨_, rfl⟩ | ⟨n, a, blocks, _, ha, _, hfree, _, rfl⟩
    · exact h
    · exact h.unlink ha hfree
  | rmdir path =>
    rcases vfsRmdir_cases hcall with ⟨_, rfl⟩ | ⟨n, a, _, ha, hdir, _, _, rfl⟩
    · exact h
    -- the data of the directory is not freed, but it has none
    · exact h.unlink ha (by rw [h.bare ha hdir]; rfl)
  | writeFile path data =>
    rcases vfsWriteFile_cases hcall with
      ⟨_, rfl⟩ | ⟨n, a, blocks, content, _, ha, hfile, _, hfree, _, _, rfl⟩
    · exact h
    · exact leakFree_written h ha hfile hfree content
  | readFile path =>
    obtain ⟨⟨found, t⟩, hread, hrest⟩ := Outcome.bind_eq_ok.mp hcall
    obtain ⟨rfl, rfl⟩ := Prod.mk.inj (Except.ok.inj hrest)
    exact leakFree_readFile h hread
  | chmod path mode =>
    rcases vfsChmod_cases hcall with rfl | ⟨n, a, _, ha, _, rfl⟩
    · exact h
    · exact h.update_attr (f := withMode mode s.clock) ha rfl rfl
  | chown path owner group =>
    rcases vfsChown_cases hcall with rfl | ⟨n, hfind, _, rfl⟩
    · exact h
    · cases hval : Forest.valAt s.nodes n with
      | none =>
        have hsame : Forest.update s.nodes n (withOwner owner group s.clock) = s.nodes := by
          have hget : s.nodes.get n = none := Option.map_eq_none_iff.mp hval
          rw [Forest.update, Heap.modify, hget]
        rw [updateNode, hsame]
        exact h
      | some a => exact h.update_attr (f := withOwner owner group s.clock) hval rfl rfl
  | chdir path =>
    rcases vfsChdir_cases hcall with rfl | ⟨_, rfl⟩
    · exact h
    · exact h
  | mountPersistent vmPath hostPath =>
    exact mount_induct (P := fun t => LeakFree t.nodes t.blocks)
      (Q := fun t => LeakFree t.nodes t.blocks) h
      (leakFree_mkdir h) (fun ht _ => ht) (fun hu hdir hv _ => hu.link hdir.live hv) (fun hu => hu) hcall
  | setHostRoot hostRoot =>
    obtain ⟨rfl, rfl⟩ := Prod.mk.inj (Except.ok.inj hcall)
    exact h
  | identify identity =>
    obtain ⟨rfl, rfl⟩ := Prod.mk.inj (Except.ok.inj hcall)
    exact h
  | hostChange entries mayRead mayWrite =>
    obtain ⟨rfl, rfl⟩ := Prod.mk.inj (Except.ok.inj hcall)
    exact h
  | wait clock =>
    obtain ⟨rfl, rfl⟩ := Prod.mk.inj (Except.ok.inj hcall)
    exact h

theorem leakFree_blank (junk : Attr) (host : Host) (clock : Nat) :
    LeakFree (blankVfs junk host clock).nodes (blankVfs junk host clock).blocks := by
  refine ⟨fun {p} hp => ?_, fun {n a} ha _ => ?_⟩
  · have hdead : (blankVfs junk host clock).blocks.live p = false := rfl
    cases hdead.symm.trans hp
  · have hval : Forest.valAt (Forest.single (rootNode junk)) n = some a := ha
    rw [Forest.valAt_single] at hval
    split at hval
    · obtain rfl := Option.some.inj hval
      rfl
    · cases hval

theorem Reachable.kept (h : Reachable s) : LeakFree s.nodes s.blocks := by
  obtain ⟨calls, hcalls⟩ := h
  refine hcalls.invariant (P := fun s => LeakFree s.nodes s.blocks) leakFree_blank ?_ ?_
  · exact fun s s' path r _ hs hcall => leakFree_mkdir hs hcall
  · exact fun s c s' hs _ hstep => leakFree_step hs hstep

end Steps

section Release

variable {nodes : Forest Attr} {blocks : Heap Bytes} {root : Nat} {order : List Nat}

theorem released (hsound : Sound nodes blocks root) (hnodup : order.Nodup)
    (hlive : ∀ n ∈ order, nodes.live n = true) (left : Heap Bytes)
    (hleft : ∀ n ∈ order, ∀ a p, Forest.valAt nodes n = some a → a.data = some p → left.live p = true) :
    ∃ left', order.foldlM (Forest.releaseAt (fun a blocks => freeData blocks a.data) nodes) left =
        .ok left' ∧
      ∀ p, left'.live p = true → left.live p = true ∧
        ∀ n ∈ order, ∀ a, Forest.valAt nodes n = some a → a.data ≠ some p := by
  induction order generalizing left with
  | nil => exact ⟨left, rfl, fun p hp => ⟨hp, fun n hn => absurd hn List.not_mem_nil⟩⟩
  | cons n order ih =>
    obtain ⟨hfresh, hrest⟩ := List.nodup_cons.mp hnodup
    obtain ⟨a, ha⟩ := Forest.live_iff_valAt.mp (hlive n List.mem_cons_self)
    obtain ⟨left₁, hfree⟩ : ∃ left₁, freeData left a.data = .ok left₁ := by
      cases hdata : a.data with
      | none => exact ⟨left, rfl⟩
      | some p => exact ⟨left.free p, if_pos (hleft n List.mem_cons_self a p ha hdata)⟩
    have hkept : ∀ m ∈ order, ∀ b p, Forest.valAt nodes m = some b → b.data = some p →
        left₁.live p = true := by
      intro m hm b p hb hp
      have hother : a.data ≠ some p := fun hap =>
        hfresh (hsound.unshared ha hb hap hp ▸ hm)
      rw [Heap.live, get_freeData hfree hother]
      exact hleft m (List.mem_cons_of_mem n hm) b p hb hp
    obtain ⟨left', hrun, hgone⟩ :=
      ih hrest (fun m hm => hlive m (List.mem_cons_of_mem n hm)) left₁ hkept
    refine ⟨left', ?_, fun p hp => ?_⟩
    · have hfirst : Forest.releaseAt (fun a blocks => freeData blocks a.data) nodes left n =
          .ok left₁ := by
        rw [Forest.releaseAt, ha]
        exact hfree
      rw [List.foldlM_cons, hfirst]
      exact hrun
    · obtain ⟨hp₁, hothers⟩ := hgone p hp
      obtain ⟨hown, hold⟩ := live_freeData hfree hp₁
      refine ⟨hold, fun m hm b hb => ?_⟩
      rcases List.mem_cons.mp hm with rfl | hm
      · obtain rfl := Option.some.inj (ha.symm.trans hb)
        exact hown
      · exact hothers m hm b hb

end Release

section Law

variable {s : VfsState} {fuel : Nat}

theorem vfsCleanup_live (hsound : Sound s.nodes s.blocks s.root) (hkept : LeakFree s.nodes s.blocks)
    (hfuel : s.nodes.size ≤ fuel) :
    ∃ nodes blocks, vfsCleanup fuel s = .ok (nodes, blocks) ∧ (∀ n, nodes.live n = false) ∧
      ∀ p, blocks.live p = false := by
  obtain ⟨order, hnodup, hmem, hrun⟩ := hsound.tree.tearsDown
    (fun a blocks => freeData blocks a.data) hsound.tree.root_live
    (Nat.le_trans hfuel (Nat.le_add_left fuel s.root))
  have hall : ∀ n, n ∈ order ↔ s.nodes.live n = true := fun n =>
    ⟨fun hn => hsound.tree.live_below hsound.tree.root_live ((hmem n).mp hn),
      fun hn => (hmem n).mpr (hsound.tree.below_root hn)⟩
  obtain ⟨left, hreleased, hgone⟩ := released hsound hnodup (fun n hn => (hall n).mp hn) s.blocks
    fun n _ a p ha hp => by
      obtain ⟨b, hb, _⟩ := hsound.stored ha hp
      rw [Heap.live, hb]
      rfl
  refine ⟨Forest.freeAll s.nodes order, left, ?_, fun n => ?_, fun p => ?_⟩
  · have hcleanup := hrun s.nodes s.blocks fun _ _ => rfl
    rw [hreleased] at hcleanup
    exact hcleanup
  · rw [Heap.live, Forest.get_freeAll]
    by_cases hn : n ∈ order
    · rw [if_pos hn]
      rfl
    · rw [if_neg hn]
      exact Bool.eq_false_iff.mpr fun hlive => hn ((hall n).mpr hlive)
  · refine Bool.eq_false_iff.mpr fun hp => ?_
    obtain ⟨hold, hnone⟩ := hgone p hp
    obtain ⟨n, a, ha, hdata⟩ := hkept.owned hold
    exact hnone n ((hall n).mpr (Forest.live_iff_valAt.mpr ⟨a, ha⟩)) a ha hdata

theorem root_of_vfsCleanup {left : Forest Attr × Heap Bytes} (h : vfsCleanup fuel s = .ok left) :
    s.nodes.live s.root = true := by
  cases fuel with
  | zero => cases h
  | succ fuel =>
    cases hroot : s.nodes.get s.root with
    | some c => rw [Heap.live, hroot]; rfl
    | none =>
      rw [vfsCleanup, vfsCleanupNode, Forest.tearDown, hroot] at h
      cases h

theorem cleanup_frees_all_iff (h : Reachable s) (hfuel : s.nodes.size < fuel) :
    (∃ nodes blocks, vfsCleanup fuel s = .ok (nodes, blocks) ∧ (∀ n, nodes.live n = false) ∧
      ∀ p, blocks.live p = false) ↔ s.nodes.live s.root = true := by
  have hkept := h.kept
  obtain ⟨calls, hcalls⟩ := h
  constructor
  · rintro ⟨nodes, blocks, hrun, -⟩
    exact root_of_vfsCleanup hrun
  · exact fun hlive => vfsCleanup_live (hcalls.consistent hlive) hkept (Nat.le_of_lt hfuel)

def oneNote : VfsState :=
  ran (fun _ _ => true) (openHost []) [.createFile (str "/tmp/n"), .writeFile (str "/tmp/n") (str "hi")]

theorem reachable_oneNote : Reachable oneNote := by
  have hreach := reachableBy_ran (fun _ _ => true) (openHost [])
    [.createFile (str "/tmp/n"), .writeFile (str "/tmp/n") (str "hi")] (by decide +kernel)
    (by decide +kernel)
  exact ⟨_, hreach.mono fun _ _ _ => trivial⟩

theorem cleanup_frees_all_iff_note :
    ∃ nodes blocks, vfsCleanup 9 oneNote = .ok (nodes, blocks) ∧ (∀ n, nodes.live n = false) ∧
      ∀ p, blocks.live p = false :=
  (cleanup_frees_all_iff reachable_oneNote (by decide +kernel)).mpr (by decide +kernel)

end Law

section Dangling

-- A file still points at a block that was freed behind its back.
structure DanglesAt (nodes : Forest Attr) (blocks : Heap Bytes) (n p : Nat) : Prop where
  node : ∃ a, Forest.valAt nodes n = some a ∧ a.isDirectory = false ∧ a.data = some p
  dead : blocks.live p = false
  old : p < blocks.size

variable {nodes : Forest Attr} {blocks blocks' : Heap Bytes} {n p m parent : Nat} {a v : Attr}
variable {f : Attr → Attr}

namespace DanglesAt

theorem link (h : DanglesAt nodes blocks n p) (hparent : nodes.live parent = true) (v : Attr) :
    DanglesAt (Forest.link nodes parent v) blocks n p := by
  obtain ⟨a, ha, hfile⟩ := h.node
  refine ⟨⟨a, ?_, hfile⟩, h.dead, h.old⟩
  rw [Forest.valAt_link_of_live hparent v (Forest.live_iff_valAt.mpr ⟨a, ha⟩), ha]

theorem unlink (h : DanglesAt nodes blocks n p) (hother : m ≠ n) :
    DanglesAt (Forest.unlink nodes m) blocks n p := by
  obtain ⟨a, ha, hfile⟩ := h.node
  refine ⟨⟨a, ?_, hfile⟩, h.dead, h.old⟩
  rw [Forest.valAt_unlink, if_neg hother.symm, ha]

theorem update_other (h : DanglesAt nodes blocks n p) (hother : m ≠ n) (f : Attr → Attr) :
    DanglesAt (Forest.update nodes m f) blocks n p := by
  obtain ⟨a, ha, hfile⟩ := h.node
  exact ⟨⟨a, by rw [Forest.valAt_update_of_ne f hother.symm, ha], hfile⟩, h.dead, h.old⟩

theorem update_attr (h : DanglesAt nodes blocks n p) (m : Nat)
    (hdir : ∀ a, (f a).isDirectory = a.isDirectory) (hdata : ∀ a, (f a).data = a.data) :
    DanglesAt (Forest.update nodes m f) blocks n p := by
  by_cases hm : m = n
  · subst hm
    obtain ⟨a, ha, hfile, hp⟩ := h.node
    refine ⟨⟨f a, ?_, (hdir a).trans hfile, (hdata a).trans hp⟩, h.dead, h.old⟩
    rw [Forest.valAt_update_self, ha]
    rfl
  · exact h.update_other hm f

theorem alloc (h : DanglesAt nodes blocks n p) (b : Bytes) :
    DanglesAt nodes (blocks.alloc b) n p := by
  refine ⟨h.node, ?_, ?_⟩
  · rw [Heap.live, Heap.get_alloc_of_ne (Nat.ne_of_lt h.old)]
    exact h.dead
  · rw [Heap.size_alloc]
    exact Nat.lt_succ_of_lt h.old

theorem freed (h : DanglesAt nodes blocks n p) (ha : Forest.valAt nodes m = some a)
    (hfree : freeData blocks a.data = .ok blocks') : m ≠ n ∧ DanglesAt nodes blocks' n p := by
  refine ⟨?_, h.node, ?_, ?_⟩
  · rintro rfl
    obtain ⟨b, hb, _, hp⟩ := h.node
    obtain rfl := Option.some.inj (ha.symm.trans hb)
    rw [hp, freeData, if_neg (by rw [h.dead]; exact Bool.false_ne_true)] at hfree
    cases hfree
  · exact Bool.eq_false_iff.mpr fun hlive =>
      Bool.false_ne_true (h.dead.symm.trans (live_freeData hfree hlive).2)
  · rw [Sound.size_freeData hfree]
    exact h.old

theorem storeData {s : VfsState} (h : DanglesAt s.nodes s.blocks n p)
    (ha : Forest.valAt s.nodes m = some a) (hfree : freeData s.blocks a.data = .ok blocks)
    (content : Option Bytes) :
    DanglesAt (storeData s m blocks content).nodes (storeData s m blocks content).blocks n p := by
  obtain ⟨hother, hkept⟩ := h.freed ha hfree
  cases content with
  | some b => exact (hkept.update_other hother _).alloc b
  | none => exact hkept.update_other hother _

theorem written {s : VfsState} (h : DanglesAt s.nodes s.blocks n p)
    (ha : Forest.valAt s.nodes m = some a) (hfree : freeData s.blocks a.data = .ok blocks)
    (content : Option Bytes) :
    DanglesAt (written s m blocks content).nodes (written s m blocks content).blocks n p := by
  rw [written_eq]
  exact (h.storeData ha hfree content).update_attr m (fun _ => rfl) fun _ => rfl

theorem addNode {s : VfsState} (h : DanglesAt s.nodes s.blocks n p)
    (hparent : IsDirectory s.nodes parent) (v : Attr) :
    DanglesAt (addNode s parent v).nodes (addNode s parent v).blocks n p := by
  rw [addNode_eq]
  exact h.link hparent.live v

theorem mkdir {s s' : VfsState} {path : Bytes} {r : Int} (h : DanglesAt s.nodes s.blocks n p)
    (hcall : vfsMkdir s path = .ok (r, s')) : DanglesAt s'.nodes s'.blocks n p := by
  rcases vfsMkdir_cases hcall with rfl | ⟨_, _, _, _, hfind, _, _, rfl⟩
  · exact h
  · exact h.addNode (isDirectory_of_find hfind) _

theorem readFile {s s' : VfsState} {path : Bytes} {found : Option (Option Nat × Nat)}
    (h : DanglesAt s.nodes s.blocks n p) (hread : vfsReadFile s path = .ok (found, s')) :
    DanglesAt s'.nodes s'.blocks n p := by
  rcases vfsReadFile_cases hread with ⟨_, rfl⟩ | ⟨m, a, _, ha, _, _, hload⟩
  · exact h
  · rcases hload with ⟨_, _, _, rfl⟩ | ⟨hnone, content, _, _, rfl⟩
    · exact h
    · have hfree : freeData s.blocks a.data = .ok s.blocks := by
        rw [hnone]
        rfl
      exact (h.update_other (h.freed ha hfree).1 _).alloc _

end DanglesAt

theorem danglesAt_call {s s' : VfsState} {c : VfsCall} {r : Int}
    (h : DanglesAt s.nodes s.blocks n p) (hcall : vfsCall s c = .ok (r, s')) :
    DanglesAt s'.nodes s'.blocks n p := by
  cases c with
  | mkdir path => exact h.mkdir hcall
  | createFile path =>
    rcases vfsCreateFile_cases hcall with ⟨_, rfl⟩ | ⟨_, _, _, _, hfind, _, rfl⟩
    · exact h
    · exact h.addNode (isDirectory_of_find hfind) _
  | createSymlink link target =>
    rcases vfsCreateSymlink_cases hcall with rfl | ⟨_, hfind, rfl⟩
    · exact h
    · exact h.link (isDirectory_of_find hfind).live _
  | deleteFile path =>
    rcases vfsDeleteFile_cases hcall with ⟨_, rfl⟩ | ⟨m, a, blocks, _, ha, _, hfree, _, rfl⟩
    · exact h
    · obtain ⟨hother, hkept⟩ := h.freed ha hfree
      exact hkept.unlink hother
  | rmdir path =>
    rcases vfsRmdir_cases hcall with ⟨_, rfl⟩ | ⟨m, a, _, ha, hdir, _, _, rfl⟩
    · exact h
    · refine h.unlink ?_
      rintro rfl
      obtain ⟨b, hb, hfile, _⟩ := h.node
      obtain rfl := Option.some.inj (ha.symm.trans hb)
      exact Bool.false_ne_true (hfile.symm.trans hdir)
  | writeFile path data =>
    rcases vfsWriteFile_cases hcall with
      ⟨_, rfl⟩ | ⟨m, a, blocks, content, _, ha, _, _, hfree, _, _, rfl⟩
    · exact h
    · exact h.written ha hfree content
  | readFile path =>
    obtain ⟨⟨found, t⟩, hread, hrest⟩ := Outcome.bind_eq_ok.mp hcall
    obtain ⟨rfl, rfl⟩ := Prod.mk.inj (Except.ok.inj hrest)
    exact h.readFile hread
  | chmod path mode =>
    rcases vfsChmod_cases hcall with rfl | ⟨m, _, _, _, _, rfl⟩
    · exact h
    · exact h.update_attr m (fun _ => rfl) fun _ => rfl
  | chown path owner group =>
    rcases vfsChown_cases hcall with rfl | ⟨m, _, _, rfl⟩
    · exact h
    · exact h.update_attr m (fun _ => rfl) fun _ => rfl
  | chdir path =>
    rcases vfsChdir_cases hcall with rfl | ⟨_, rfl⟩
    · exact h
    · exact h
  | mountPersistent vmPath hostPath =>
    exact mount_induct (P := fun t => DanglesAt t.nodes t.blocks n p)
      (Q := fun t => DanglesAt t.nodes t.blocks n p) h h.mkdir (fun ht _ => ht)
      (fun hu hdir _ _ => hu.link hdir.live _) (fun hu => hu) hcall
  | setHostRoot hostRoot =>
    obtain ⟨rfl, rfl⟩ := Prod.mk.inj (Except.ok.inj hcall)
    exact h
  | identify identity =>
    obtain ⟨rfl, rfl⟩ := Prod.mk.inj (Except.ok.inj hcall)
    exact h
  | hostChange entries mayRead mayWrite =>
    obtain ⟨rfl, rfl⟩ := Prod.mk.inj (Except.ok.inj hcall)
    exact h
  | wait clock =>
    obtain ⟨rfl, rfl⟩ := Prod.mk.inj (Except.ok.inj hcall)
    exact h

theorem not_released {order : List Nat} (h : DanglesAt nodes blocks n p) (hn : n ∈ order)
    (left : Heap Bytes) :
    order.foldlM (Forest.releaseAt (fun a blocks => freeData blocks a.data) nodes) blocks ≠
      .ok left := by
  induction order generalizing blocks with
  | nil => exact absurd hn List.not_mem_nil
  | cons m order ih =>
    intro hrun
    rw [List.foldlM_cons] at hrun
    obtain ⟨blocks', hfirst, hrest⟩ := Outcome.bind_eq_ok.mp hrun
    rw [Forest.releaseAt] at hfirst
    cases ha : Forest.valAt nodes m with
    | none =>
      rw [ha] at hfirst
      cases hfirst
    | some a =>
      rw [ha] at hfirst
      obtain ⟨hother, hkept⟩ := h.freed ha hfirst
      exact ih hkept ((List.mem_cons.mp hn).resolve_left hother.symm) hrest

theorem vfsCleanup_dangling {s : VfsState} {fuel : Nat} (hshape : Shape s.nodes s.root)
    (h : DanglesAt s.nodes s.blocks n p) (hfuel : s.nodes.size ≤ fuel)
    (left : Forest Attr × Heap Bytes) : vfsCleanup fuel s ≠ .ok left := by
  obtain ⟨order, _, hmem, hrun⟩ := hshape.tree.tearsDown
    (fun a blocks => freeData blocks a.data) hshape.tree.root_live
    (Nat.le_trans hfuel (Nat.le_add_left fuel s.root))
  obtain ⟨a, ha, _⟩ := h.node
  have hn : n ∈ order := (hmem n).mpr (hshape.tree.below_root (Forest.live_iff_valAt.mpr ⟨a, ha⟩))
  intro hcleanup
  have hreleased := (hrun s.nodes s.blocks fun _ _ => rfl).symm.trans hcleanup
  obtain ⟨left', hleft, _⟩ := Outcome.map_eq_ok.mp hreleased
  exact not_released h hn left' hleft

end Dangling

end ZoraVM.Vfs
