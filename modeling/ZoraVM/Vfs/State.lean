import ZoraVM.Foundation.NamedForest
import ZoraVM.Vfs.Host

namespace ZoraVM.Vfs

open Foundation

def permRead : BitVec 32 := 0o400
def permWrite : BitVec 32 := 0o200
def defaultFilePerms : BitVec 32 := 0o644
def defaultDirPerms : BitVec 32 := 0o755

-- The fields of a VNode but its links; `data` is the address of a block.
structure Attr where
  name : Bytes
  isDirectory : Bool
  isSymlink : Bool
  symlinkTarget : Option Bytes
  size : Nat
  data : Option Nat
  hostPath : Option Bytes
  mode : BitVec 32
  owner : Bytes
  group : Bytes
  createdTime : Nat
  modifiedTime : Nat
  deriving DecidableEq, Repr

structure Identity where
  vfsCurrentUser : Bytes
  vfsCurrentGroup : Bytes
  vfsIsRoot : Bool
  deriving DecidableEq, Repr

def guest : Identity := ⟨str "guest", str "users", false⟩

structure VfsState where
  nodes : Forest Attr
  blocks : Heap Bytes
  root : Nat
  currentDirectory : Bytes
  hostRootDirectory : Bytes
  identity : Identity
  host : Host
  clock : Nat

section Nodes

variable (s : VfsState)

def vfsSetDefaultPermissions (a : Attr) (owner group : Bytes) : Attr :=
  { a with
    owner := clip 50 owner
    group := clip 50 group
    createdTime := s.clock
    modifiedTime := s.clock }

def blankNode (name : Bytes) (isDirectory : Bool) : Attr :=
  ⟨clip 256 name, isDirectory, false, none, 0, none, none, 0, [], [], 0, 0⟩

def vfsCreateDirectoryNode (name : Bytes) : Attr :=
  { vfsSetDefaultPermissions s (blankNode name true) s.identity.vfsCurrentUser
      s.identity.vfsCurrentGroup with
    mode := defaultDirPerms }

def vfsCreateFileNode (name : Bytes) : Attr :=
  { vfsSetDefaultPermissions s (blankNode name false) s.identity.vfsCurrentUser
      s.identity.vfsCurrentGroup with
    mode := defaultFilePerms }

-- The new node gets the address `s.nodes.size`.
def vfsAddChild (parent : Nat) (child : Attr) : VfsState :=
  { s with nodes := Forest.link s.nodes parent child }

def updateNode (n : Nat) (f : Attr → Attr) : VfsState := { s with nodes := Forest.update s.nodes n f }

def withData (data : Option Nat) (size : Nat) (a : Attr) : Attr :=
  { a with data := data, size := size }

def touched (clock : Nat) (a : Attr) : Attr := { a with modifiedTime := clock }

theorem name_withData (data : Option Nat) (size : Nat) (a : Attr) :
    (withData data size a).name = a.name := rfl

theorem name_touched (clock : Nat) (a : Attr) : (touched clock a).name = a.name := rfl

def nodeAt (n : Nat) : Outcome Attr :=
  match Forest.valAt s.nodes n with
  | some a => .ok a
  | none => .error .freedNode

def pathComponents (path : Bytes) : List Bytes := tokens slash (clip 256 path)

def vfsFindNode (path : Bytes) : Outcome (Option Nat) :=
  if s.nodes.live s.root then .ok (Forest.walk Attr.name s.nodes s.root (pathComponents path))
  else .error .freedNode

end Nodes

section Permissions

def permits (id : Identity) (a : Attr) (user : Bytes) (required : BitVec 32) : Bool :=
  if id.vfsIsRoot then true
  else if a.owner = user then a.mode &&& (required <<< 6) != 0
  else if a.group = id.vfsCurrentGroup then a.mode &&& (required <<< 3) != 0
  else a.mode &&& required != 0

def vfsCheckPermission (s : VfsState) (path user : Bytes) (required : BitVec 32) : Outcome Bool := do
  match ← vfsFindNode s path with
  | none => .ok false
  | some n =>
    let a ← nodeAt s n
    .ok (permits s.identity a user required)

end Permissions

section HostSync

variable (s : VfsState)

-- The walk up the parents: `path` is what path_buffer and temp_path hold.
def hostPathFrom (nodes : Forest Attr) : Nat → Nat → Bytes → Bytes
  | 0, _, path => path
  | fuel + 1, current, path =>
    match Forest.parentOf nodes current, Forest.keyAt Attr.name nodes current with
    | some parent, some name =>
      hostPathFrom nodes fuel parent
        (if path = [] then clip 1024 name else clip 1024 (name ++ backslash :: path))
    | _, _ => path

-- Called only where host_root_directory is not empty.
def vfsGetHostPath (n : Nat) : Bytes :=
  let path := hostPathFrom s.nodes s.nodes.size n []
  if path = [] then clip 1024 s.hostRootDirectory
  else clip 1024 (s.hostRootDirectory ++ backslash :: path)

def vfsEnsureHostDirectory (h : Host) (path : Bytes) : Int × Host :=
  match h.entry (Location.resolve path) with
  | none =>
    match h.createDirectory path with
    | (true, h) => (0, h)
    | (false, h) => (-1, h)
  | some .directory => (0, h)
  | some (.file _) => (-1, h)

def nodeContent (a : Attr) : Bytes :=
  match a.data with
  | none => []
  | some p => ((s.blocks.get p).getD []).take a.size

def vfsSyncToHost (n : Nat) : Int × VfsState :=
  if s.hostRootDirectory = [] then (-1, s)
  else
    match Forest.valAt s.nodes n with
    | none => (-1, s)
    | some a =>
      if a.isDirectory then
        let made := vfsEnsureHostDirectory s.host (vfsGetHostPath s n)
        (made.1, { s with host := made.2 })
      else
        let written := s.host.openWrite (vfsGetHostPath s n) (nodeContent s a)
        (if written.1 then 0 else -1, { s with host := written.2 })

def loaded (n : Nat) (content : Bytes) : VfsState :=
  { updateNode s n (withData (some s.blocks.size) content.length) with
    blocks := s.blocks.alloc (content ++ [0]) }

def vfsLoadFileContent (n : Nat) : Int × VfsState :=
  match Forest.valAt s.nodes n with
  | none => (-1, s)
  | some a =>
    match a.isDirectory, a.hostPath with
    | true, _ => (-1, s)
    | _, none => (-1, s)
    | false, some hostPath =>
      if a.data.isSome then (0, s)
      else
        match s.host.openRead hostPath with
        | none => (-1, s)
        | some content => if content.length > maxFileSize then (-1, s) else (0, loaded s n content)

end HostSync

end ZoraVM.Vfs
