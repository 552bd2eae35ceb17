import ZoraVM.Vfs.CurrentDirectory

namespace ZoraVM.Vfs

open Foundation

section Model

structure Rooted (s : VfsState) : Prop where
  live : s.nodes.live s.root = true
  reached : ∀ n, s.nodes.live n = true → Forest.Below s.nodes s.root n
  parent : ∀ n p, s.nodes.live n = true →
    (Forest.parentOf s.nodes n = some p ↔ n ∈ Forest.childrenOf s.nodes p)
  once : ∀ p, (Forest.childrenOf s.nodes p).Nodup

def treeCall : VfsCall → Bool
  | .mkdir _ => true
  | .createFile _ => true
  | .deleteFile _ => true
  | .rmdir _ => true
  | _ => false

def keepsRoot (s : VfsState) : VfsCall → Bool
  | .rmdir path => pathComponents path != [] || Forest.childrenOf s.nodes s.root != []
  | _ => true

end Model

section Steps

variable {s s' : VfsState} {path : Bytes} {r : Int}

theorem rooted_iff (h : Shaped s) : Rooted s ↔ s.nodes.live s.root = true := by
  constructor
  · exact Rooted.live
  · intro hlive
    have htree := (h hlive).tree
    refine ⟨hlive, fun n => htree.below_root, fun n p _ => ?_, htree.nodup⟩
    exact ⟨htree.parent_child, fun hin => (htree.child_parent hin).2⟩

theorem rooted_step_iff {c : VfsCall} (h : Shaped s) (hs : Rooted s) (hc : treeCall c = true)
    (hcall : vfsCall s c = .ok (r, s')) : Rooted s' ↔ keepsRoot s c = true := by
  have h' : Shaped s' := shaped_call h hcall
  rw [rooted_iff h']
  cases c with
  | mkdir path => exact iff_of_true (rootKept_mkdir hs.live hcall).live rfl
  | createFile path => exact iff_of_true (rootKept_createFile hs.live hcall).live rfl
  | deleteFile path => exact iff_of_true (rootKept_deleteFile h hs.live hcall).live rfl
  | rmdir path =>
    have hkeep : keepsRoot s (.rmdir path) = true ↔
        pathComponents path ≠ [] ∨ Forest.childrenOf s.nodes s.root ≠ [] := by simp [keepsRoot]
    rw [hkeep]
    constructor
    · intro hlive'
      by_contra hgone
      push Not at hgone
      have hfreed := rmdir_root h hs.live hgone.1 hgone.2 hcall
      exact Bool.false_ne_true (hfreed.symm.trans hlive')
    · exact fun hkept => (rootKept_rmdir h hs.live hcall hkept).live
  | _ => cases hc

end Steps

section Runs

variable {s : VfsState} {calls : List VfsCall}

theorem rooted_blank (junk : Attr) (host : Host) (clock : Nat) :
    Rooted (blankVfs junk host clock) := by
  have hsound := sound_blank junk host clock
  exact (rooted_iff fun _ => hsound.toShape).mpr hsound.tree.root_live

theorem root_survives
    (h : ReachableBy (fun s c => treeCall c = true ∧ keepsRoot s c = true) calls s) :
    Rooted s ∧ ∀ c s', treeCall c = true → vfsStep s c = some s' →
      (Rooted s' ↔ keepsRoot s c = true) := by
  have hboth : Shaped s ∧ Rooted s := by
    refine h.invariant (P := fun s => Shaped s ∧ Rooted s) ?_ ?_ ?_
    · intro junk host clock
      exact ⟨fun _ => (sound_blank junk host clock).toShape, rooted_blank junk host clock⟩
    · intro s s' path r _ hs hcall
      have h' := shaped_mkdir hs.1 hcall
      exact ⟨h', (rooted_iff h').mpr (rootKept_mkdir hs.2.live hcall).live⟩
    · intro s c s' hs hok hstep
      obtain ⟨_, hcall⟩ := vfsStep_eq hstep
      exact ⟨shaped_step hs.1 hstep, (rooted_step_iff hs.1 hs.2 hok.1 hcall).mpr hok.2⟩
  refine ⟨hboth.2, fun c s' hc hstep => ?_⟩
  obtain ⟨_, hcall⟩ := vfsStep_eq hstep
  exact rooted_step_iff hboth.1 hboth.2 hc hcall

end Runs

section Concrete

def growingCalls : List VfsCall :=
  [.mkdir (str "/home/a"), .createFile (str "/home/a/f"), .createFile (str "/"),
    .deleteFile (str "/home/a/f"), .rmdir (str "/"), .rmdir (str "/home/a"), .rmdir (str "/tmp")]

theorem root_survives_growing :
    Rooted (ran (fun s c => treeCall c && keepsRoot s c) (openHost []) growingCalls) := by
  have hreach := reachableBy_ran (fun s c => treeCall c && keepsRoot s c) (openHost [])
    growingCalls (by decide +kernel) (by decide +kernel)
  exact (root_survives (hreach.mono fun s c h => by simpa using h)).1

def emptyingCalls : List VfsCall := initialDirectories.map .rmdir ++ [.rmdir (str "/")]

theorem root_removed :
    ¬ ∀ (calls : List VfsCall) (s : VfsState),
      ReachableBy (fun _ c => treeCall c = true) calls s → Rooted s := by
  intro hall
  have hreach := reachableBy_ran (fun _ c => treeCall c) (openHost []) emptyingCalls
    (by decide +kernel) (by decide +kernel)
  exact absurd (hall _ _ hreach).live (by decide +kernel)

end Concrete

end ZoraVM.Vfs
