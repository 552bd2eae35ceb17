import Mathlib.Data.BitVec
import ZoraVM.Foundation.TreeSum
import ZoraVM.Vfs.PathResolution
import ZoraVM.Vfs.TreeShape

namespace ZoraVM.System

open Foundation Vfs

structure DiskInfo where
  mountPoint : Bytes
  filesystemType : Bytes
  totalSize : BitVec 64
  usedSize : BitVec 64
  availableSize : BitVec 64
  totalInodes : BitVec 64
  usedInodes : BitVec 64
  availableInodes : BitVec 64
  usagePercent : BitVec 32
  readonly : BitVec 32
  deriving DecidableEq, Repr

-- 10 GiB and a hundred thousand nodes, whatever is mounted.
def totalSize : BitVec 64 := 10737418240
def totalInodes : BitVec 64 := 100000

section Model

variable (s : VfsState)

def countInodesRecursive : Nat → Nat → Outcome (BitVec 32) :=
  Forest.addUp Attr.isDirectory (fun _ => 1) s.nodes

def calculateSizeRecursive : Nat → Nat → Outcome (BitVec 64) :=
  Forest.addUp Attr.isDirectory (fun a => BitVec.ofNat 64 a.size) s.nodes

-- The recursion goes down from a node to its children, so its depth is within the number of nodes.
def diskGetInfo (path : Bytes) : Outcome (Option DiskInfo) := do
  match ← vfsFindNode s path with
  | none => .ok none
  | some _ =>
    let usedSize ← calculateSizeRecursive s s.nodes.size s.root
    let usedInodes := (← countInodesRecursive s s.nodes.size s.root).signExtend 64
    .ok (some {
      mountPoint := clip 256 path
      filesystemType := str "ZoraVFS"
      totalSize := totalSize
      usedSize := usedSize
      availableSize := totalSize - usedSize
      usagePercent := (usedSize * 100 / totalSize).setWidth 32
      totalInodes := totalInodes
      usedInodes := usedInodes
      availableInodes := totalInodes - usedInodes
      readonly := 0 })

def sizeAt (n : Nat) : Nat := ((Forest.valAt s.nodes n).map Attr.size).getD 0

def sizeInUse : Nat := ∑ n ∈ Forest.liveNodes s.nodes, sizeAt s n

def nodesInUse : Nat := (Forest.liveNodes s.nodes).card

structure Accounts (info : DiskInfo) : Prop where
  usedSize : info.usedSize.toNat = sizeInUse s
  usedInodes : info.usedInodes.toNat = nodesInUse s
  sizes : info.availableSize.toNat + info.usedSize.toNat = info.totalSize.toNat
  inodes : info.availableInodes.toNat + info.usedInodes.toNat = info.totalInodes.toNat

end Model

variable {s : VfsState} {path : Bytes} {n : Nat}

theorem sum_ofNat {w : Nat} (l : Finset Nat) (g : Nat → Nat) :
    ∑ m ∈ l, BitVec.ofNat w (g m) = BitVec.ofNat w (∑ m ∈ l, g m) := by
  induction l using Finset.cons_induction with
  | empty => rfl
  | cons a l ha ih => rw [Finset.sum_cons, Finset.sum_cons, ih, BitVec.ofNat_add]

theorem calculateSize_eq (h : Shape s.nodes s.root) :
    calculateSizeRecursive s s.nodes.size s.root = .ok (BitVec.ofNat 64 (sizeInUse s)) := by
  have hsum := h.tree.addUp_root (fun a : Attr => BitVec.ofNat 64 a.size) h.leaves
    (Nat.le_refl s.nodes.size)
  rw [calculateSizeRecursive, hsum, sizeInUse, ← sum_ofNat]
  refine congrArg Except.ok (Finset.sum_congr rfl fun m _ => ?_)
  rw [Forest.weightAt, sizeAt]
  cases Forest.valAt s.nodes m <;> rfl

theorem countInodes_eq (h : Shape s.nodes s.root) :
    countInodesRecursive s s.nodes.size s.root = .ok (BitVec.ofNat 32 (nodesInUse s)) := by
  have hsum := h.tree.addUp_root (fun _ : Attr => (1 : BitVec 32)) h.leaves
    (Nat.le_refl s.nodes.size)
  rw [countInodesRecursive, hsum, nodesInUse, Finset.card_eq_sum_ones, ← sum_ofNat]
  refine congrArg Except.ok (Finset.sum_congr rfl fun m hm => ?_)
  obtain ⟨a, ha⟩ := Forest.live_iff_valAt.mp (Forest.mem_liveNodes.mp hm)
  rw [Forest.weightAt, ha]
  rfl

theorem sub_add_cancel_iff {w : Nat} (a b : BitVec w) :
    (a - b).toNat + b.toNat = a.toNat ↔ b.toNat ≤ a.toNat := by
  constructor
  · omega
  · intro hle
    rw [BitVec.toNat_sub_of_le (BitVec.le_def.mpr hle)]
    omega

def infoOf (s : VfsState) (path : Bytes) : DiskInfo :=
  let usedSize := BitVec.ofNat 64 (sizeInUse s)
  let usedInodes := (BitVec.ofNat 32 (nodesInUse s)).signExtend 64
  { mountPoint := clip 256 path
    filesystemType := str "ZoraVFS"
    totalSize := totalSize
    usedSize := usedSize
    availableSize := totalSize - usedSize
    usagePercent := (usedSize * 100 / totalSize).setWidth 32
    totalInodes := totalInodes
    usedInodes := usedInodes
    availableInodes := totalInodes - usedInodes
    readonly := 0 }

theorem diskGetInfo_eq (h : Shape s.nodes s.root) (hpath : vfsFindNode s path = .ok (some n)) :
    diskGetInfo s path = .ok (some (infoOf s path)) := by
  simp only [diskGetInfo, hpath, calculateSize_eq h, countInodes_eq h, bind, Except.bind]
  rfl

theorem toNat_usedInodes {c : Nat} (hc : c ≤ 100000) :
    ((BitVec.ofNat 32 c).signExtend 64).toNat = c := by
  have hsmall : (BitVec.ofNat 32 c).toNat = c := by
    rw [BitVec.toNat_ofNat]
    omega
  have hmsb : (BitVec.ofNat 32 c).msb = false := by
    rw [BitVec.msb_eq_decide, hsmall]
    exact decide_eq_false (by omega)
  rw [BitVec.signExtend_eq_setWidth_of_msb_false hmsb, BitVec.toNat_setWidth, hsmall]
  omega

theorem accounts_infoOf_iff : Accounts s (infoOf s path) ↔
    sizeInUse s ≤ totalSize.toNat ∧ nodesInUse s ≤ totalInodes.toNat := by
  have hsizes : totalSize.toNat = 10737418240 := rfl
  have hinodes : totalInodes.toNat = 100000 := rfl
  constructor
  · rintro ⟨hused, hnodes, hsize, hinode⟩
    have hroom := (sub_add_cancel_iff totalSize _).mp hsize
    have hleft := (sub_add_cancel_iff totalInodes _).mp hinode
    constructor
    · rw [← hused]
      exact hroom
    · rw [← hnodes]
      exact hleft
  · rintro ⟨hsize, hnodes⟩
    have hused : (infoOf s path).usedSize.toNat = sizeInUse s := by
      have hfield : (infoOf s path).usedSize = BitVec.ofNat 64 (sizeInUse s) := rfl
      rw [hfield, BitVec.toNat_ofNat]
      omega
    have hcount : (infoOf s path).usedInodes.toNat = nodesInUse s :=
      toNat_usedInodes (hinodes ▸ hnodes)
    refine ⟨hused, hcount, (sub_add_cancel_iff totalSize _).mpr ?_,
      (sub_add_cancel_iff totalInodes _).mpr ?_⟩
    · exact hused.trans_le hsize
    · exact hcount.trans_le hnodes

section Results

theorem disk_accounts_iff (h : Shape s.nodes s.root) (hpath : vfsFindNode s path = .ok (some n)) :
    ∃ info, diskGetInfo s path = .ok (some info) ∧
      (Accounts s info ↔ sizeInUse s ≤ totalSize.toNat ∧ nodesInUse s ≤ totalInodes.toNat) :=
  ⟨_, diskGetInfo_eq h hpath, accounts_infoOf_iff⟩

theorem find_bin : vfsFindNode bootedTree (str "/bin") = .ok (some 1) := by
  decide +kernel

theorem disk_accounts_iff_booted :
    ∃ info, diskGetInfo bootedTree (str "/bin") = .ok (some info) ∧
      (Accounts bootedTree info ↔
        sizeInUse bootedTree ≤ totalSize.toNat ∧ nodesInUse bootedTree ≤ totalInodes.toNat) :=
  disk_accounts_iff bootedTree_sound.1.toShape find_bin

def largeFile (name : Bytes) : Attr :=
  ⟨name, false, false, none, 4294967295, none, some (str "C:\\d\\" ++ name), defaultFilePerms,
    str "guest", str "users", 0, 0⟩

def threeLargeFiles : VfsState :=
  vfsAddChild (vfsAddChild (vfsAddChild bootedTree 1 (largeFile (str "a"))) 1 (largeFile (str "b"))) 1
    (largeFile (str "c"))

theorem shape_threeLargeFiles : Shape threeLargeFiles.nodes threeLargeFiles.root := by
  have hdir : IsDirectory bootedTree.nodes 1 :=
    ⟨(Forest.valAt bootedTree.nodes 1).getD (largeFile []), by decide +kernel, by decide +kernel⟩
  have h₁ := bootedTree_sound.1.toShape.link hdir (largeFile (str "a"))
  have h₂ := h₁.link (hdir.link hdir.live _) (largeFile (str "b"))
  exact h₂.link ((hdir.link hdir.live _).link (hdir.link hdir.live _).live _) _

theorem free_space_wraps :
    ¬ ∀ (s : VfsState) (path : Bytes) (n : Nat) (info : DiskInfo), Shape s.nodes s.root →
      vfsFindNode s path = .ok (some n) → diskGetInfo s path = .ok (some info) → Accounts s info := by
  intro hall
  have hfound : vfsFindNode threeLargeFiles (str "/bin") = .ok (some 1) := by decide +kernel
  have haccounts := hall threeLargeFiles (str "/bin") 1 _ shape_threeLargeFiles hfound
    (diskGetInfo_eq shape_threeLargeFiles hfound)
  have hfits := (accounts_infoOf_iff.mp haccounts).1
  exact absurd hfits (by decide +kernel)

end Results

end ZoraVM.System
