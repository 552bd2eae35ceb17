import ZoraVM.Vfs.RootSurvival
import ZoraVM.Vfs.PathResolution
import ZoraVM.Vfs.ReadWrite

namespace ZoraVM.Vfs

open Foundation

section Definitions

variable (s : VfsState) (path : Bytes)

structure Removed (s' : VfsState) (n : Nat) : Prop where
  gone : vfsFindNode s' path = .ok none
  found : ∀ q m, vfsFindNode s q = .ok (some m) → m ≠ n → vfsFindNode s' q = .ok (some m)
  unchanged : OthersUnchanged s s' n

def RemovesOne (call : Outcome (Int × VfsState)) : Prop :=
  ∀ r s', call = .ok (r, s') →
    (r = 0 → ∃ n, vfsFindNode s path = .ok (some n) ∧ Removed s path s' n) ∧ (r = -1 → s' = s)

def RemovalExact : Prop :=
  RemovesOne s path (vfsDeleteFile s path) ∧ RemovesOne s path (vfsRmdir s path)

def EmptyRoot : Prop := pathComponents path = [] ∧ Forest.childrenOf s.nodes s.root = []

end Definitions

variable {s s' : VfsState} {path : Bytes} {n : Nat} {r : Int}

section Unlinked

variable (htree : Forest.WellFormed s.nodes s.root) (hd : Distinct s)
  (hleaf : Forest.childrenOf s.nodes n = []) (hroot : n ≠ s.root)
  (hnodes : s'.nodes = Forest.unlink s.nodes n) (hsame : s'.root = s.root)

include htree hd hleaf hroot hnodes hsame

theorem find_unlinked (hfind : vfsFindNode s path = .ok (some n)) (q : Bytes) :
    vfsFindNode s' q =
      if pathComponents q = pathComponents path then .ok none else vfsFindNode s q := by
  have hlive : s'.nodes.live s'.root = true := by
    rw [hnodes, hsame]
    exact Forest.live_unlink.mpr ⟨hroot.symm, htree.root_live⟩
  rw [vfsFindNode_of_live hlive, vfsFindNode_of_live htree.root_live, hnodes, hsame,
    htree.walk_unlink_eq hd hleaf hroot (vfsFindNode_ok hfind).2]
  split
  · rfl
  · rfl

theorem removed_of_unlinked (hfind : vfsFindNode s path = .ok (some n))
    (hblocks : ∀ m a p, m ≠ n → Forest.valAt s.nodes m = some a → a.data = some p →
      s'.blocks.get p = s.blocks.get p) : Removed s path s' n := by
  refine ⟨?_, ?_, ?_⟩
  · rw [find_unlinked htree hd hleaf hroot hnodes hsame hfind, if_pos rfl]
  · intro q m hq hm
    rw [find_unlinked htree hd hleaf hroot hnodes hsame hfind, if_neg, hq]
    intro hpaths
    have hwalk := (vfsFindNode_ok hq).2
    rw [hpaths, (vfsFindNode_ok hfind).2] at hwalk
    exact hm (Option.some.inj hwalk).symm
  · intro m hm
    refine ⟨?_, fun a p => hblocks m a p hm⟩
    rw [hnodes, Forest.valAt_unlink, if_neg hm]

end Unlinked

theorem deleteFile_removes (h : Sound s.nodes s.blocks s.root) (hd : Distinct s) :
    RemovesOne s path (vfsDeleteFile s path) := by
  intro r s' hcall
  rcases vfsDeleteFile_cases hcall with ⟨rfl, rfl⟩ | ⟨n, a, blocks, hfind, ha, hfile, hfree, rfl, rfl⟩
  · exact ⟨fun hzero => absurd hzero (by decide), fun _ => rfl⟩
  · have hroot : n ≠ s.root := by
      rintro rfl
      exact Bool.false_ne_true (hfile.symm.trans (h.root_directory ha))
    have hremoved : Removed s path (withoutFile s n blocks) n :=
      removed_of_unlinked h.tree hd (h.leaves ha hfile) hroot rfl rfl hfind
        fun m b p hm hb hp => h.freed_keeps ha hfree hm hb hp
    exact ⟨fun _ => ⟨n, hfind, hremoved⟩, fun hneg => absurd hneg (by decide)⟩

theorem rmdir_removes (h : Sound s.nodes s.blocks s.root) (hd : Distinct s)
    (hkeep : ¬ EmptyRoot s path) : RemovesOne s path (vfsRmdir s path) := by
  intro r s' hcall
  rcases vfsRmdir_cases hcall with ⟨rfl, rfl⟩ | ⟨n, a, hfind, ha, _, hleaf, rfl, rfl⟩
  · exact ⟨fun hzero => absurd hzero (by decide), fun _ => rfl⟩
  · have hroot : n ≠ s.root := by
      rintro rfl
      exact hkeep ⟨components_of_root (fun _ => h.toShape) h.tree.root_live hfind, hleaf⟩
    have hremoved : Removed s path (withoutDirectory s n) n :=
      removed_of_unlinked h.tree hd hleaf hroot rfl rfl hfind fun _ _ _ _ _ _ => rfl
    exact ⟨fun _ => ⟨n, hfind, hremoved⟩, fun hneg => absurd hneg (by decide)⟩

theorem rmdir_empty_root (h : Sound s.nodes s.blocks s.root) (hempty : EmptyRoot s path) :
    vfsRmdir s path = .ok (0, withoutDirectory s s.root) := by
  obtain ⟨a, ha⟩ := Forest.live_iff_valAt.mp h.tree.root_live
  have hfind : vfsFindNode s path = .ok (some s.root) := by
    rw [vfsFindNode_of_live h.tree.root_live, hempty.1]
    rfl
  simp [vfsRmdir, hfind, nodeAt_of_valAt ha, h.root_directory ha, hempty.2, bind, Except.bind,
    withoutDirectory]

theorem not_exact_of_emptyRoot (h : Sound s.nodes s.blocks s.root) (hempty : EmptyRoot s path) :
    ¬ RemovalExact s path := by
  rintro ⟨_, hrmdir⟩
  obtain ⟨n, _, hremoved⟩ := (hrmdir 0 _ (rmdir_empty_root h hempty)).1 rfl
  have hlive := (vfsFindNode_ok hremoved.gone).1
  exact (Forest.live_unlink.mp hlive).1 rfl

theorem removal_exact_iff (h : Sound s.nodes s.blocks s.root) (hd : Distinct s) (path : Bytes) :
    RemovalExact s path ↔ ¬ EmptyRoot s path := by
  constructor
  · exact fun hexact hempty => not_exact_of_emptyRoot h hempty hexact
  · exact fun hkeep => ⟨deleteFile_removes h hd, rmdir_removes h hd hkeep⟩

section Concrete

theorem removal_exact_iff_bin : RemovalExact bootedTree (str "/bin/d") :=
  (removal_exact_iff bootedTree_sound.1 bootedTree_sound.2 _).mpr fun hempty =>
    absurd hempty.1 (by decide +kernel)

def emptiedTree : VfsState :=
  ran (fun s c => namingCall c && addsNoNamesake s c) (openHost []) (initialDirectories.map .rmdir)

theorem emptiedTree_sound :
    Sound emptiedTree.nodes emptiedTree.blocks emptiedTree.root ∧ Distinct emptiedTree :=
  sound_of_naming (reachableBy_ran (fun s c => namingCall c && addsNoNamesake s c) (openHost [])
    (initialDirectories.map .rmdir) (by decide +kernel) (by decide +kernel)) (by decide +kernel)

theorem root_removal_not_exact :
    ¬ ∀ (s : VfsState) (path : Bytes), Sound s.nodes s.blocks s.root → Distinct s →
      path.length < 256 → RemovalExact s path := by
  intro hall
  have hempty : EmptyRoot emptiedTree (str "/") := ⟨by decide +kernel, by decide +kernel⟩
  exact not_exact_of_emptyRoot emptiedTree_sound.1 hempty
    (hall emptiedTree (str "/") emptiedTree_sound.1 emptiedTree_sound.2 (by decide))

end Concrete

end ZoraVM.Vfs
