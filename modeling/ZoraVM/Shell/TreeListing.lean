import ZoraVM.Foundation.Strtok
import ZoraVM.Foundation.Traversal
import ZoraVM.Vfs.SiblingNames
import ZoraVM.Vfs.TreeShape

namespace ZoraVM.Shell

open Foundation Vfs

-- What one line is printed from: the child, and the path and the depth of the call it is printed in.
structure Entry where
  dirPath : Bytes
  depth : Nat
  node : Nat
  attr : Attr
  deriving DecidableEq, Repr

section Model

variable (s : VfsState)

def childPath (dirPath name : Bytes) : Bytes := clip 512 (dirPath ++ slash :: name)

def forChildren (body : Nat → Outcome (Option (List Entry))) :
    List Nat → Outcome (Option (List Entry))
  | [] => .ok (some [])
  | c :: rest => do
    let first ← body c
    let later ← forChildren body rest
    .ok (first.bind fun es => later.map (es ++ ·))

def visitChild (prints : Attr → Bool) (self : Bytes → Nat → Outcome (Option (List Entry)))
    (dirPath : Bytes) (depth c : Nat) : Outcome (Option (List Entry)) := do
  let child ← nodeAt s c
  let own := if prints child then [⟨dirPath, depth, c, child⟩] else []
  if child.isDirectory then do
    let below ← self (childPath dirPath child.name) (depth + 1)
    .ok (below.map (own ++ ·))
  else .ok (some own)

-- `none` where the fuel does not reach.
def visitDirectory (prints : Attr → Bool) : Nat → Bytes → Nat → Outcome (Option (List Entry))
  | 0, _, _ => .ok none
  | fuel + 1, dirPath, depth => do
    match ← findDirectory s dirPath with
    | none => .ok (some [])
    | some dirNode =>
      forChildren (visitChild s prints (visitDirectory prints fuel) dirPath depth)
        (Forest.childrenOf s.nodes dirNode)

def matching (pattern : Bytes) (a : Attr) : Bool := occurs pattern a.name

def everything (_ : Attr) : Bool := true

def findFilesRecursive (pattern : Bytes) (fuel : Nat) (dirPath : Bytes) :
    Outcome (Option (List Entry)) :=
  visitDirectory s (matching pattern) fuel dirPath 0

def printTreeRecursive (fuel : Nat) (dirPath : Bytes) (depth : Nat) :
    Outcome (Option (List Entry)) :=
  visitDirectory s everything fuel dirPath depth

def findLine (dirPath : Bytes) (a : Attr) : Bytes := dirPath ++ slash :: (a.name ++ str "\n")

def folderIcon : Bytes := [0xF0, 0x9F, 0x93, 0x81]
def pageIcon : Bytes := [0xF0, 0x9F, 0x93, 0x84]

def treeLine (depth : Nat) (a : Attr) : Bytes :=
  List.replicate (2 * depth) 32 ++
    (if a.isDirectory then folderIcon ++ 32 :: (a.name ++ [slash])
      else pageIcon ++ 32 :: (a.name ++ (str " (" ++ (str (toString a.size) ++ str " bytes)")))) ++
    str "\n"

end Model

structure Searchable (s : VfsState) : Prop where
  shape : Shape s.nodes s.root
  distinct : Distinct s
  named : ∀ {c a}, Forest.valAt s.nodes c = some a → c ≠ s.root →
    a.name ≠ [] ∧ slash ∉ a.name ∧ a.name.length < 256

section Search

variable {s : VfsState} {prints : Attr → Bool} {p : Bytes} {c k : Nat} {j : Bytes × Nat}
variable {e : Entry}

def search (s : VfsState) (prints : Attr → Bool) : Traversal (Bytes × Nat) Nat Entry where
  items i := (Forest.walk Attr.name s.nodes s.root (pathComponents i.1)).elim []
    (Forest.childrenOf s.nodes)
  emit i c := ((Forest.valAt s.nodes c).filter prints).toList.map (Entry.mk i.1 i.2 c)
  next i c := ((Forest.valAt s.nodes c).filter Attr.isDirectory).map fun a =>
    (childPath i.1 a.name, i.2 + 1)

theorem mem_items : c ∈ (search s prints).items (p, k) ↔
    ∃ x, Forest.walk Attr.name s.nodes s.root (pathComponents p) = some x ∧
      c ∈ Forest.childrenOf s.nodes x := by
  cases hwalk : Forest.walk Attr.name s.nodes s.root (pathComponents p) <;> simp [search, hwalk]

theorem mem_emit : e ∈ (search s prints).emit (p, k) c ↔
    ∃ a, Forest.valAt s.nodes c = some a ∧ prints a = true ∧ e = ⟨p, k, c, a⟩ := by
  simp only [search, List.mem_map, Option.mem_toList, Option.filter_eq_some_iff, and_assoc,
    eq_comm (a := e)]

theorem next_eq_some : (search s prints).next (p, k) c = some j ↔
    ∃ a, Forest.valAt s.nodes c = some a ∧ a.isDirectory = true ∧
      j = (childPath p a.name, k + 1) := by
  simp only [search, Option.map_eq_some_iff, Option.filter_eq_some_iff, and_assoc, eq_comm (a := j)]

theorem forChildren_eq {body : Nat → Outcome (Option (List Entry))}
    {result : Nat → Option (List Entry)} {cs : List Nat} (h : ∀ c ∈ cs, body c = .ok (result c)) :
    forChildren body cs = .ok (gather result cs) := by
  induction cs with
  | nil => rfl
  | cons c cs ih =>
    rw [forChildren, h c List.mem_cons_self, ih fun c' hc' => h c' (List.mem_cons_of_mem c hc')]
    rfl

theorem visitChild_eq {self : Bytes → Nat → Outcome (Option (List Entry))}
    {result : Bytes × Nat → Option (List Entry)} (h : ∀ p k, self p k = .ok (result (p, k)))
    (hc : s.nodes.live c = true) :
    visitChild s prints self p k c = .ok ((search s prints).ofItem result (p, k) c) := by
  obtain ⟨a, ha⟩ := Forest.live_iff_valAt.mp hc
  have hemit : (search s prints).emit (p, k) c = if prints a then [⟨p, k, c, a⟩] else [] := by
    by_cases hprints : prints a = true <;> simp [search, ha, Option.filter, hprints]
  have hnode := nodeAt_of_valAt ha
  by_cases hdir : a.isDirectory = true
  · have hnext : (search s prints).next (p, k) c = some (childPath p a.name, k + 1) :=
      next_eq_some.mpr ⟨a, ha, hdir, rfl⟩
    rw [Traversal.ofItem_call hnext, hemit]
    simp [visitChild, hnode, hdir, h, bind, Except.bind]
  · have hnext : (search s prints).next (p, k) c = none := by simp [search, ha, Option.filter, hdir]
    rw [Traversal.ofItem_plain hnext, hemit]
    simp [visitChild, hnode, hdir, bind, Except.bind]

theorem visitDirectory_eq (hs : Searchable s) (fuel : Nat) (p : Bytes) (k : Nat) :
    visitDirectory s prints fuel p k = .ok ((search s prints).visit fuel (p, k)) := by
  induction fuel generalizing p k with
  | zero => rfl
  | succ fuel ih =>
    have hfind : vfsFindNode s p =
        .ok (Forest.walk Attr.name s.nodes s.root (pathComponents p)) :=
      vfsFindNode_of_live hs.shape.tree.root_live
    rw [visitDirectory, Traversal.visit]
    cases hwalk : Forest.walk Attr.name s.nodes s.root (pathComponents p) with
    | none =>
      have hitems : (search s prints).items (p, k) = [] := by simp [search, hwalk]
      simp [findDirectory, hfind, hwalk, hitems, gather, bind, Except.bind]
    | some x =>
      have hlive := hs.shape.tree.live_walk hs.shape.tree.root_live hwalk
      obtain ⟨b, hb⟩ := Forest.live_iff_valAt.mp hlive
      have hitems : (search s prints).items (p, k) = Forest.childrenOf s.nodes x := by
        simp [search, hwalk]
      have hnode := nodeAt_of_valAt hb
      by_cases hdir : b.isDirectory = true
      · have hall : forChildren (visitChild s prints (visitDirectory s prints fuel) p k)
            (Forest.childrenOf s.nodes x) =
            .ok (gather ((search s prints).ofItem ((search s prints).visit fuel) (p, k))
              (Forest.childrenOf s.nodes x)) :=
          forChildren_eq fun c hc => visitChild_eq ih (hs.shape.tree.child_parent hc).1
        rw [hitems, ← hall]
        simp [findDirectory, hfind, hwalk, hnode, hdir, bind, Except.bind]
      · have hnone := hs.shape.leaves hb (Bool.eq_false_iff.mpr hdir)
        rw [hitems, hnone]
        simp [findDirectory, hfind, hwalk, hnode, hdir, gather, bind, Except.bind]

end Search

end ZoraVM.Shell
