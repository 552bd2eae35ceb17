import ZoraVM.Vfs.Operations

namespace ZoraVM.Vfs

open Foundation

def isDotName (name : Bytes) : Bool := name == dot || name == dotDot

def entryPath (hostPath name : Bytes) : Bytes := clip maxPath (hostPath ++ backslash :: name)

def searchAll (h : Host) (hostPath : Bytes) : List (Bytes × HostEntry) :=
  (h.find (clip maxPath (hostPath ++ [backslash, 42]))).filter fun e => !isDotName e.1

def hostFileNode (s : VfsState) (name fullHostPath content : Bytes) : Attr :=
  { vfsCreateFileNode s name with
    hostPath := some fullHostPath
    size := content.length % 2 ^ 32 }

-- Paths are cut at MAX_PATH, so a path that no longer grows is loaded again without end:
-- 260 levels deep the recursion has no way back.
def vfsLoadHostDirectory : Nat → VfsState → Nat → Bytes → Outcome VfsState
  | 0, _, _, _ => .error .stackOverflow
  | fuel + 1, s, vmNode, hostPath =>
    (searchAll s.host hostPath).foldlM (fun s e =>
      match e.2 with
      | .directory =>
        vfsLoadHostDirectory fuel (vfsAddChild s vmNode (vfsCreateDirectoryNode s e.1)) s.nodes.size
          (entryPath hostPath e.1)
      | .file content =>
        .ok (vfsAddChild s vmNode (hostFileNode s e.1 (entryPath hostPath e.1) content))) s

def mountPoint (s : VfsState) (vmPath : Bytes) : Outcome (Option Nat × VfsState) := do
  match ← vfsFindNode s vmPath with
  | some _ => .ok (← findDirectory s vmPath, s)
  | none =>
    let made ← vfsMkdir s vmPath
    if made.1 ≠ 0 then .ok (none, made.2)
    else .ok (← findDirectory made.2 vmPath, made.2)

def vfsMountPersistent (s : VfsState) (vmPath hostPath : Bytes) : Outcome (Int × VfsState) := do
  match ← mountPoint s vmPath with
  | (none, s) => .ok (-1, s)
  | (some vmNode, s) =>
    let s := { s with host := (s.host.createDirectoryRecursive hostPath).2 }
    .ok (0, ← vfsLoadHostDirectory maxPath s vmNode hostPath)

end ZoraVM.Vfs
