import ZoraVM.Vfs.Calls

namespace ZoraVM.Shell

open Foundation Vfs

section Paths

-- The current directory up to its last '/', unless that is its first byte.
def parentPrefix (limit : Nat) (cwd : Bytes) : Bytes :=
  match splitLast slash cwd with
  | some (dir, _) => if dir.length < limit then dir else []
  | none => []

def expandPath (cwd input : Bytes) : Bytes :=
  if input = str "~" then str "/home"
  else if input = str ".." then
    if parentPrefix 512 cwd = [] then [slash] else parentPrefix 512 cwd
  else if input = str "." then clip 512 cwd
  else if (str "../").isPrefixOf input then clip 512 (parentPrefix 256 cwd ++ slash :: input.drop 3)
  else if (str "~/").isPrefixOf input then clip 512 (str "/home/" ++ input.drop 2)
  else clip 512 input

def fullPath (cwd input : Bytes) : Bytes :=
  let expanded := expandPath cwd input
  if expanded.head? = some slash then expanded else clip 512 (cwd ++ slash :: expanded)

end Paths

inductive Report where
  | noSuchFile
  | isDirectory
  | notCreated
  | copied
  | moved
  | notRemoved
  deriving DecidableEq, Repr

section Commands

variable (s : VfsState)

-- A block for the source's bytes, set behind the destination's back; nothing is freed.
def copyNodeData (src : Nat) (dest : Option Nat) : Outcome VfsState := do
  let a ← nodeAt s src
  match dest, a.data with
  | some d, some p =>
    -- The source would by now have the new block itself, with nothing in it yet.
    if d = src then .error .wildPointer
    else
      let bytes ← readBuffer s.blocks a.size (.block p)
      .ok (storeData s d s.blocks (some bytes))
  | _, _ => .ok s

def cpCommand (src dest : Bytes) : Outcome (Report × VfsState) := do
  let srcFull := fullPath s.currentDirectory src
  let destFull := fullPath s.currentDirectory dest
  match ← vfsFindNode s srcFull with
  | none => .ok (.noSuchFile, s)
  | some n =>
    let a ← nodeAt s n
    if a.isDirectory then .ok (.isDirectory, s)
    else
      let (r, s) ← vfsCreateFile s destFull
      if r ≠ 0 then .ok (.notCreated, s)
      else
        let s ← copyNodeData s n (← vfsFindNode s destFull)
        .ok (.copied, s)

def mvCommand (src dest : Bytes) : Outcome (Report × VfsState) := do
  let srcFull := fullPath s.currentDirectory src
  let destFull := fullPath s.currentDirectory dest
  match ← vfsFindNode s srcFull with
  | none => .ok (.noSuchFile, s)
  | some n =>
    let a ← nodeAt s n
    if a.isDirectory then .ok (.isDirectory, s)
    else
      let (r, s) ← vfsCreateFile s destFull
      if r ≠ 0 then .ok (.notCreated, s)
      else
        let s ← copyNodeData s n (← vfsFindNode s destFull)
        let (r, s) ← vfsDeleteFile s srcFull
        .ok (if r = 0 then .moved else .notRemoved, s)

end Commands

section Runs

inductive ShellCall where
  | vfs (c : VfsCall)
  | cp (src dest : Bytes)
  | mv (src dest : Bytes)

def shellStep (s : VfsState) : ShellCall → Option VfsState
  | .vfs c => vfsStep s c
  | .cp src dest =>
    match cpCommand s src dest with
    | .ok (_, s') => some s'
    | .error _ => none
  | .mv src dest =>
    match mvCommand s src dest with
    | .ok (_, s') => some s'
    | .error _ => none

def ShellReachable (s : VfsState) : Prop :=
  ∃ junk host clock s₀ calls, vfsInit junk host clock = .ok s₀ ∧
    Run shellStep (fun _ _ => True) s₀ calls s

end Runs

end ZoraVM.Shell
