import ZoraVM.Foundation.Run
import ZoraVM.Vfs.Mount

namespace ZoraVM.Vfs

open Foundation

inductive VfsCall where
  | mkdir (path : Bytes)
  | createFile (path : Bytes)
  | createSymlink (linkPath targetPath : Bytes)
  | deleteFile (path : Bytes)
  | rmdir (path : Bytes)
  | writeFile (path data : Bytes)
  | readFile (path : Bytes)
  | chmod (path : Bytes) (mode : BitVec 32)
  | chown (path : Bytes) (owner group : Option Bytes)
  | chdir (path : Bytes)
  | mountPersistent (vmPath hostPath : Bytes)
  | setHostRoot (hostRoot : Bytes)
  -- the globals that user.c assigns
  | identify (identity : Identity)
  -- what others do to the host, and time going by
  | hostChange (entries : List (Location × HostEntry)) (mayRead mayWrite : Location → Bool)
  | wait (clock : Nat)

def vfsCall (s : VfsState) : VfsCall → Outcome (Int × VfsState)
  | .mkdir path => vfsMkdir s path
  | .createFile path => vfsCreateFile s path
  | .createSymlink linkPath targetPath => vfsCreateSymlink s linkPath targetPath
  | .deleteFile path => vfsDeleteFile s path
  | .rmdir path => vfsRmdir s path
  | .writeFile path data => vfsWriteFile s path (.bytes data) data.length
  | .readFile path => do
    let (found, s) ← vfsReadFile s path
    .ok (if found.isSome then 0 else -1, s)
  | .chmod path mode => vfsChmod s path mode
  | .chown path owner group => vfsChown s path owner group
  | .chdir path => vfsChdir s path
  | .mountPersistent vmPath hostPath => vfsMountPersistent s vmPath hostPath
  | .setHostRoot hostRoot => .ok (0, vfsSetHostRoot s hostRoot)
  | .identify identity => .ok (0, { s with identity := identity })
  | .hostChange entries mayRead mayWrite =>
    .ok (0, { s with host := { s.host with
      entries := entries
      mayRead := mayRead
      mayWrite := mayWrite } })
  | .wait clock => .ok (0, { s with clock := clock })

def vfsStep (s : VfsState) (c : VfsCall) : Option VfsState :=
  match vfsCall s c with
  | .ok (_, s') => some s'
  | .error _ => none

-- The root node comes from malloc; `junk` is what vfs_init finds in the rest of it.
def rootNode (junk : Attr) : Attr :=
  { junk with
    name := [slash]
    isDirectory := true
    size := 0
    data := none
    hostPath := none }

def blankVfs (junk : Attr) (host : Host) (clock : Nat) : VfsState where
  nodes := Forest.single (rootNode junk)
  blocks := Heap.empty
  root := 0
  currentDirectory := [slash]
  hostRootDirectory := []
  identity := guest
  host := host
  clock := clock

def initialDirectories : List Bytes :=
  [str "/bin", str "/home", str "/tmp", str "/etc", str "/usr", str "/var"]

def vfsInit (junk : Attr) (host : Host) (clock : Nat) : Outcome VfsState :=
  initialDirectories.foldlM (fun s path => Prod.snd <$> vfsMkdir s path) (blankVfs junk host clock)

def ReachableBy (allowed : VfsState → VfsCall → Prop) (calls : List VfsCall) (s : VfsState) : Prop :=
  ∃ junk host clock s₀, vfsInit junk host clock = .ok s₀ ∧ Run vfsStep allowed s₀ calls s

def Reachable (s : VfsState) : Prop := ∃ calls, ReachableBy (fun _ _ => True) calls s

theorem ReachableBy.mono {allowed allowed' : VfsState → VfsCall → Prop} {calls : List VfsCall}
    {s : VfsState} (hsub : ∀ s c, allowed s c → allowed' s c) (h : ReachableBy allowed calls s) :
    ReachableBy allowed' calls s := by
  obtain ⟨junk, host, clock, s₀, hinit, hrun⟩ := h
  exact ⟨junk, host, clock, s₀, hinit, hrun.mono hsub⟩

section Concrete

def junkNode : Attr := ⟨[], false, false, none, 0, none, none, 0, [], [], 0, 0⟩

def openHost (entries : List (Location × HostEntry)) : Host :=
  ⟨entries, fun _ => true, fun _ => true, []⟩

def booted (host : Host) : VfsState :=
  match vfsInit junkNode host 0 with
  | .ok s => s
  | .error _ => blankVfs junkNode host 0

def ran (allowed : VfsState → VfsCall → Bool) (host : Host) (calls : List VfsCall) : VfsState :=
  (exec (guarded vfsStep allowed) (booted host) calls).getD (booted host)

theorem reachableBy_ran (allowed : VfsState → VfsCall → Bool) (host : Host)
    (calls : List VfsCall)
    (hinit : (vfsInit junkNode host 0).isOk = true)
    (hrun : (exec (guarded vfsStep allowed) (booted host) calls).isSome = true) :
    ReachableBy (fun s c => allowed s c = true) calls (ran allowed host calls) := by
  refine ⟨junkNode, host, 0, booted host, ?_, Run.of_exec_isSome hrun⟩
  unfold booted
  cases h : vfsInit junkNode host 0 with
  | ok s => rfl
  | error e => simp [h, Except.isOk, Except.toBool] at hinit

end Concrete

end ZoraVM.Vfs
