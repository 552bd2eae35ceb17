import ZoraVM.Vfs.Mirror

namespace ZoraVM.Vfs

open Foundation

structure SubtreeKept (s s' : VfsState) (n : Nat) : Prop where
  values : ∀ m, Forest.Below s.nodes n m → Forest.valAt s'.nodes m = Forest.valAt s.nodes m
  children : ∀ m, Forest.Below s.nodes n m → Forest.childrenOf s'.nodes m = Forest.childrenOf s.nodes m
  contents : s'.blocks = s.blocks

def NothingToMark (s : VfsState) (n : Nat) : Prop :=
  ∀ c ∈ Forest.childrenOf s.nodes n, ∀ a, Forest.valAt s.nodes c = some a → a.isDirectory = false →
    a.modifiedTime = 0

def Unopened (s : VfsState) (hostPath : Bytes) : Prop :=
  s.host.searchable (clip maxPath (hostPath ++ [backslash, 42])) = false

section Marks

variable {s : VfsState} {n m : Nat} {a : Attr} {cs : List Nat}

def markAll (s : VfsState) (cs : List Nat) : VfsState :=
  cs.foldl (fun s c => updateNode s c markedMissing) s

theorem markChildren_eq (s : VfsState) (n : Nat) :
    markChildren s n = markAll s (Forest.childrenOf s.nodes n) := rfl

theorem markedMissing_twice (a : Attr) : markedMissing (markedMissing a) = markedMissing a := by
  cases hdir : a.isDirectory with
  | true => simp [markedMissing, hdir]
  | false => simp [markedMissing, hdir]

theorem markedMissing_eq_iff :
    markedMissing a = a ↔ (a.isDirectory = false → a.modifiedTime = 0) := by
  cases hdir : a.isDirectory with
  | true => simp [markedMissing, hdir]
  | false =>
    have hmarked : markedMissing a = { a with modifiedTime := 0 } := by
      rw [markedMissing, hdir, if_neg Bool.false_ne_true]
    rw [hmarked]
    constructor
    · intro heq _
      rw [← heq]
    · intro hzero
      rw [← hzero rfl]

theorem valAt_markAll (s : VfsState) (cs : List Nat) (m : Nat) :
    Forest.valAt (markAll s cs).nodes m =
      if m ∈ cs then (Forest.valAt s.nodes m).map markedMissing else Forest.valAt s.nodes m := by
  induction cs generalizing s with
  | nil => rfl
  | cons c cs ih =>
    have hrest := ih (updateNode s c markedMissing)
    have hone := Forest.valAt_update s.nodes c m markedMissing
    rw [show markAll s (c :: cs) = markAll (updateNode s c markedMissing) cs from rfl, hrest,
      updateNode, hone]
    by_cases hmc : m = c
    · subst hmc
      by_cases hin : m ∈ cs
      · have htwice : markedMissing ∘ markedMissing = markedMissing := funext markedMissing_twice
        simp [hin, htwice]
      · simp [hin]
    · simp [hmc]

theorem childrenOf_markAll (s : VfsState) (cs : List Nat) (m : Nat) :
    Forest.childrenOf (markAll s cs).nodes m = Forest.childrenOf s.nodes m := by
  induction cs generalizing s with
  | nil => rfl
  | cons c cs ih => exact (ih _).trans (Forest.childrenOf_update s.nodes c m markedMissing)

theorem blocks_markAll (s : VfsState) (cs : List Nat) : (markAll s cs).blocks = s.blocks := by
  induction cs generalizing s with
  | nil => rfl
  | cons c cs ih => exact ih _

theorem kept_markChildren_iff (s : VfsState) (n : Nat) :
    SubtreeKept s (markChildren s n) n ↔ NothingToMark s n := by
  rw [markChildren_eq]
  constructor
  · intro hkept c hc a ha
    have hval := hkept.values c (.single hc)
    rw [valAt_markAll, if_pos hc, ha, Option.map_some] at hval
    exact markedMissing_eq_iff.mp (Option.some.inj hval)
  · intro hnone
    refine ⟨fun m _ => ?_, fun m _ => childrenOf_markAll s _ m, blocks_markAll s _⟩
    rw [valAt_markAll]
    split
    · next hc =>
      cases ha : Forest.valAt s.nodes m with
      | none => rfl
      | some a => rw [Option.map_some, markedMissing_eq_iff.mpr (hnone m hc a ha)]
    · rfl

end Marks

section Results

variable (writeTime : Location → BitVec 64) (fuel : Nat) (s : VfsState) (n : Nat) (hostPath : Bytes)

theorem sync_unopened (h : Unopened s hostPath) :
    vfsSyncDirectoryFromHost writeTime (fuel + 1) s n hostPath = .ok (0, markChildren s n) := by
  have hclosed : s.host.searchable (clip maxPath (hostPath ++ [backslash, 42])) = false := h
  rw [vfsSyncDirectoryFromHost, hclosed, if_neg Bool.false_ne_true]

theorem unopened_directory_kept_iff (h : Unopened s hostPath) :
    ∃ s', vfsSyncDirectoryFromHost writeTime (fuel + 1) s n hostPath = .ok (0, s') ∧
      (SubtreeKept s s' n ↔ NothingToMark s n) :=
  ⟨_, sync_unopened writeTime fuel s n hostPath h, kept_markChildren_iff s n⟩

theorem unopened_emptyTree : Unopened emptyTree (str "q") := by
  unfold Unopened
  decide

theorem unopened_directory_kept_iff_deeper :
    ∃ s', vfsSyncDirectoryFromHost year1970 maxPath treeWithLostFile 0 (str "q") = .ok (0, s') ∧
      SubtreeKept treeWithLostFile s' 0 := by
  obtain ⟨s', hrun, hiff⟩ := unopened_directory_kept_iff year1970 259 treeWithLostFile 0 (str "q")
    unopened_emptyTree
  have hchildren : Forest.childrenOf treeWithLostFile.nodes 0 = [1] := by decide +kernel
  have hdir : ((Forest.valAt treeWithLostFile.nodes 1).map (·.isDirectory)) = some true := by
    decide +kernel
  refine ⟨s', hrun, hiff.mpr fun c hc a ha hfile => ?_⟩
  rw [hchildren] at hc
  rw [List.mem_singleton.mp hc] at ha
  rw [ha, Option.map_some, hfile] at hdir
  cases hdir

def treeWithFile : VfsState := vfsAddChild emptyTree 0 (vfsCreateFileNode emptyTree (str "y"))

theorem unopened_directory_clears_times :
    ¬ ∀ (writeTime : Location → BitVec 64) (s s' : VfsState) (n : Nat) (hostPath : Bytes) (r : Int),
      Unopened s hostPath → vfsSyncDirectoryFromHost writeTime maxPath s n hostPath = .ok (r, s') →
      SubtreeKept s s' n := by
  intro hall
  have hclosed : Unopened treeWithFile (str "q") := unopened_emptyTree
  have hrun := sync_unopened year1970 259 treeWithFile 0 (str "q") hclosed
  have hkept := hall year1970 treeWithFile _ 0 (str "q") 0 hclosed hrun
  have hzero := (kept_markChildren_iff treeWithFile 0).mp hkept 1 (by decide)
    (vfsCreateFileNode emptyTree (str "y")) rfl rfl
  cases hzero

end Results

end ZoraVM.Vfs
