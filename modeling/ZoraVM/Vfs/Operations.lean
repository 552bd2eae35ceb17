import ZoraVM.Vfs.State

namespace ZoraVM.Vfs

open Foundation

-- Where the bytes come from: the caller's memory or a block of the heap.
inductive Buffer where
  | null
  | bytes (b : Bytes)
  | block (p : Nat)
  deriving DecidableEq, Repr

section Paths

variable (s : VfsState)

-- parent_path and dir_name (or file_name) have 256 bytes each and nothing checks them.
def splitPath (path : Bytes) : Outcome (Bytes × Bytes) :=
  match splitLast slash path with
  | some (dir, name) =>
    if 256 ≤ dir.length ∨ 256 ≤ name.length then .error .bufferOverflow
    else .ok (if dir = [] then [slash] else dir, name)
  | none => if 256 ≤ path.length then .error .bufferOverflow else .ok ([slash], path)

def splitLinkPath (path : Bytes) : Bytes × Bytes :=
  match splitLast slash path with
  | some (dir, name) => (clip 512 dir, clip 256 name)
  | none => ([slash], clip 256 path)

def findDirectory (path : Bytes) : Outcome (Option Nat) := do
  match ← vfsFindNode s path with
  | none => .ok none
  | some n =>
    let a ← nodeAt s n
    .ok (if a.isDirectory then some n else none)

def addNode (parent : Nat) (child : Attr) : VfsState :=
  let s' := vfsAddChild s parent child
  if s.hostRootDirectory = [] then s' else (vfsSyncToHost s' s.nodes.size).2

end Paths

section Creation

variable (s : VfsState)

def vfsMkdir (path : Bytes) : Outcome (Int × VfsState) := do
  let (parentPath, dirName) ← splitPath path
  match ← findDirectory s parentPath with
  | none => .ok (-1, s)
  | some parent =>
    if (Forest.childNamed Attr.name s.nodes parent dirName).isSome then .ok (0, s)
    else .ok (0, addNode s parent (vfsCreateDirectoryNode s dirName))

def vfsCreateFile (path : Bytes) : Outcome (Int × VfsState) := do
  let (parentPath, fileName) ← splitPath path
  match ← findDirectory s parentPath with
  | none => .ok (-1, s)
  | some parent => .ok (0, addNode s parent (vfsCreateFileNode s fileName))

def vfsSymlinkNode (linkName targetPath : Bytes) : Attr :=
  { vfsSetDefaultPermissions s
      { blankNode linkName false with
        isSymlink := true
        symlinkTarget := some targetPath
        size := targetPath.length }
      s.identity.vfsCurrentUser s.identity.vfsCurrentGroup with
    mode := 0o777 }

def vfsCreateSymlink (linkPath targetPath : Bytes) : Outcome (Int × VfsState) := do
  match ← findDirectory s (splitLinkPath linkPath).1 with
  | none => .ok (-1, s)
  | some parent =>
    .ok (0, vfsAddChild s parent (vfsSymlinkNode s (splitLinkPath linkPath).2 targetPath))

end Creation

section Blocks

def freeData (blocks : Heap Bytes) : Option Nat → Outcome (Heap Bytes)
  | none => .ok blocks
  | some p => if blocks.live p then .ok (blocks.free p) else .error .freedBlock

def readBuffer (blocks : Heap Bytes) (size : Nat) : Buffer → Outcome Bytes
  | .null => .ok []
  | .bytes b => if size ≤ b.length then .ok (b.take size) else .error .bufferOverflow
  | .block p =>
    match blocks.get p with
    | none => .error .freedBlock
    | some b => if size ≤ b.length then .ok (b.take size) else .error .bufferOverflow

-- `none` where the node is left without data.
def copyData (blocks : Heap Bytes) (size : Nat) (data : Buffer) : Outcome (Option Bytes) :=
  if 0 < size ∧ data ≠ .null then some <$> readBuffer blocks size data else .ok none

end Blocks

section Removal

variable (s : VfsState)

def vfsRmdir (path : Bytes) : Outcome (Int × VfsState) := do
  match ← vfsFindNode s path with
  | none => .ok (-1, s)
  | some n =>
    let a ← nodeAt s n
    if !a.isDirectory || Forest.childrenOf s.nodes n != [] then .ok (-1, s)
    else
      let host :=
        if s.hostRootDirectory = [] then s.host else s.host.removeDirectory (vfsGetHostPath s n)
      .ok (0, { s with host := host, nodes := Forest.unlink s.nodes n })

def vfsDeleteFile (path : Bytes) : Outcome (Int × VfsState) := do
  match ← vfsFindNode s path with
  | none => .ok (-1, s)
  | some n =>
    let a ← nodeAt s n
    if a.isDirectory then .ok (-1, s)
    else
      let host :=
        if s.hostRootDirectory = [] then s.host else s.host.deleteFile (vfsGetHostPath s n)
      let blocks ← freeData s.blocks a.data
      .ok (0, { s with host := host, nodes := Forest.unlink s.nodes n, blocks := blocks })

end Removal

section Content

variable (s : VfsState)

def storeData (n : Nat) (blocks : Heap Bytes) (content : Option Bytes) : VfsState :=
  match content with
  | some b =>
    { updateNode s n (withData (some blocks.size) b.length) with blocks := blocks.alloc b }
  | none => { updateNode s n (withData none 0) with blocks := blocks }

def vfsWriteFile (path : Bytes) (data : Buffer) (size : Nat) : Outcome (Int × VfsState) := do
  match ← vfsFindNode s path with
  | none => .ok (-1, s)
  | some n =>
    let a ← nodeAt s n
    if a.isDirectory then .ok (-1, s)
    else if !(← vfsCheckPermission s path s.identity.vfsCurrentUser (permWrite >>> 6)) then
      .ok (-1, s)
    else
      let blocks ← freeData s.blocks a.data
      let content ← copyData blocks size data
      let s' := updateNode (storeData s n blocks content) n (touched s.clock)
      .ok (0, if s.hostRootDirectory = [] then s' else (vfsSyncToHost s' n).2)

-- The pointer and the size the caller gets, if the answer is 0.
def vfsReadFile (path : Bytes) : Outcome (Option (Option Nat × Nat) × VfsState) := do
  match ← vfsFindNode s path with
  | none => .ok (none, s)
  | some n =>
    let a ← nodeAt s n
    if a.isDirectory then .ok (none, s)
    else if !(← vfsCheckPermission s path s.identity.vfsCurrentUser (permRead >>> 6)) then
      .ok (none, s)
    else
      let loaded := if a.data.isSome then (0, s) else vfsLoadFileContent s n
      if loaded.1 ≠ 0 then .ok (none, loaded.2)
      else
        let a ← nodeAt loaded.2 n
        .ok (some (a.data, a.size), loaded.2)

end Content

section Attributes

variable (s : VfsState)

def withMode (mode : BitVec 32) (clock : Nat) (a : Attr) : Attr :=
  { a with mode := mode, modifiedTime := clock }

def withOwner (owner group : Option Bytes) (clock : Nat) (a : Attr) : Attr :=
  { a with
    owner := (owner.map (clip 50)).getD a.owner
    group := (group.map (clip 50)).getD a.group
    modifiedTime := clock }

def vfsChmod (path : Bytes) (mode : BitVec 32) : Outcome (Int × VfsState) := do
  match ← vfsFindNode s path with
  | none => .ok (-1, s)
  | some n =>
    let a ← nodeAt s n
    if !s.identity.vfsIsRoot && a.owner != s.identity.vfsCurrentUser then .ok (-1, s)
    else .ok (0, updateNode s n (withMode mode s.clock))

def vfsChown (path : Bytes) (owner group : Option Bytes) : Outcome (Int × VfsState) := do
  match ← vfsFindNode s path with
  | none => .ok (-1, s)
  | some n =>
    if !s.identity.vfsIsRoot then .ok (-1, s)
    else .ok (0, updateNode s n (withOwner owner group s.clock))

def vfsChdir (path : Bytes) : Outcome (Int × VfsState) := do
  let newPath :=
    if path.head? = some slash then clip 256 path
    else if s.currentDirectory = [slash] then clip 256 (slash :: path)
    else clip 256 (s.currentDirectory ++ slash :: path)
  match ← findDirectory s newPath with
  | none => .ok (-1, s)
  | some _ => .ok (0, { s with currentDirectory := newPath })

def vfsSetHostRoot (hostRoot : Bytes) : VfsState := { s with hostRootDirectory := clip 512 hostRoot }

end Attributes

end ZoraVM.Vfs
