import ZoraVM.Vfs.Mount

namespace ZoraVM.Vfs

open Foundation

-- FILETIME counts steps of 100 ns from 1601; the subtraction is unsigned.
def timeOfFileTime (t : BitVec 64) : Nat := ((t - 116444736000000000) / 10000000).toNat

-- ftell answers a 32-bit long, and -1 where the size does not fit one.
def ftellSize (content : Bytes) : Int := if content.length < 2 ^ 31 then content.length else -1

-- Whether FindFirstFile finds anything, "." and ".." included.
def Host.searchable (h : Host) (search : Bytes) : Bool :=
  match (Location.resolve search).parts with
  | [] => false
  | name :: parts =>
    if name = [42] then
      parts == [] || h.entry ⟨(Location.resolve search).rooted, parts⟩ == some .directory
    else (h.entry (Location.resolve search)).isSome

def markedMissing (a : Attr) : Attr := if a.isDirectory then a else { a with modifiedTime := 0 }

def withoutData (a : Attr) : Attr := { a with data := none }

def withSize (size : Nat) (a : Attr) : Attr := { a with size := size }

section Files

variable (s : VfsState)

def readInto (n : Nat) (fullPath : Bytes) : VfsState :=
  match s.host.openRead fullPath with
  | none => s
  | some content =>
    if 0 < ftellSize content then
      { updateNode s n (withData (some s.blocks.size) content.length) with
        blocks := s.blocks.alloc content }
    else updateNode s n (withSize 0)

def syncNewFile (node : Nat) (name fullPath : Bytes) : VfsState :=
  updateNode (readInto (vfsAddChild s node (vfsCreateFileNode s name)) s.nodes.size fullPath)
    s.nodes.size (touched s.clock)

def syncExistingFile (writeTime : Location → BitVec 64) (existing : Nat) (fullPath : Bytes) :
    Outcome VfsState := do
  let a ← nodeAt s existing
  let found := updateNode s existing (touched s.clock)
  let fileTime := timeOfFileTime (writeTime (Location.resolve fullPath))
  if (s.host.openRead fullPath).isSome && decide (a.modifiedTime < fileTime) then
    let blocks ← freeData s.blocks a.data
    let freed := { updateNode found existing withoutData with blocks := blocks }
    .ok (updateNode (readInto freed existing fullPath) existing (touched fileTime))
  else .ok found

def markChildren (node : Nat) : VfsState :=
  (Forest.childrenOf s.nodes node).foldl (fun s child => updateNode s child markedMissing) s

def sweepChild (s : VfsState) (child : Nat) : Outcome VfsState := do
  let a ← nodeAt s child
  if !a.isDirectory && a.modifiedTime == 0 then
    let blocks ← freeData s.blocks a.data
    .ok { s with nodes := Forest.unlink s.nodes child, blocks := blocks }
  else .ok s

def sweepChildren (node : Nat) : Outcome VfsState :=
  (Forest.childrenOf s.nodes node).foldlM sweepChild s

end Files

def syncEntry (writeTime : Location → BitVec 64)
    (syncDirectory : VfsState → Nat → Bytes → Outcome (Int × VfsState)) (node : Nat)
    (hostPath : Bytes) (s : VfsState) (e : Bytes × HostEntry) : Outcome VfsState :=
  match Forest.childNamed Attr.name s.nodes node e.1, e.2 with
  | none, .directory =>
    Prod.snd <$> syncDirectory (vfsAddChild s node (vfsCreateDirectoryNode s e.1)) s.nodes.size
      (entryPath hostPath e.1)
  | some existing, .directory =>
    Prod.snd <$> syncDirectory s existing (entryPath hostPath e.1)
  | none, .file _ => .ok (syncNewFile s node e.1 (entryPath hostPath e.1))
  | some existing, .file _ =>
    syncExistingFile s writeTime existing (entryPath hostPath e.1)

-- As in vfsLoadHostDirectory, a path that no longer grows is searched again without end.
def vfsSyncDirectoryFromHost (writeTime : Location → BitVec 64) :
    Nat → VfsState → Nat → Bytes → Outcome (Int × VfsState)
  | 0, _, _, _ => .error .stackOverflow
  | fuel + 1, s, node, hostPath => do
    let marked := markChildren s node
    if s.host.searchable (clip maxPath (hostPath ++ [backslash, 42])) then
      let listed ← (searchAll s.host hostPath).foldlM
        (syncEntry writeTime (vfsSyncDirectoryFromHost writeTime fuel) node hostPath) marked
      .ok (1, ← sweepChildren listed node)
    else .ok (0, marked)

def vfsSyncFromHost (writeTime : Location → BitVec 64) (s : VfsState) : Outcome (Int × VfsState) :=
  if s.hostRootDirectory = [] then .ok (0, s)
  else if s.nodes.live s.root then
    vfsSyncDirectoryFromHost writeTime maxPath s s.root s.hostRootDirectory
  else .error .freedNode

end ZoraVM.Vfs
