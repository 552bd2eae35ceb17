import ZoraVM.Foundation.Memory
import ZoraVM.Vfs.Calls

namespace ZoraVM.Kernel

open Foundation Vfs

def maxFds : Nat := 256

structure FileDescriptor where
  inUse : Bool
  path : Option Bytes
  data : Option Nat
  size : Nat
  position : Nat
  flags : BitVec 32
  deriving DecidableEq, Repr

def unusedDescriptor : FileDescriptor := ⟨false, none, none, 0, 0, 0⟩

structure SyscallState where
  fdTable : Nat → FileDescriptor
  vfs : VfsState

def advanced (file : FileDescriptor) (count : Nat) : FileDescriptor :=
  { file with position := file.position + count }

section Calls

variable (s : SyscallState)

def setDescriptor (fd : Nat) (file : FileDescriptor) : SyscallState :=
  { s with fdTable := fun i => if i = fd then file else s.fdTable i }

def validFd (fd : Nat) : Bool := decide (3 ≤ fd) && decide (fd < maxFds) && (s.fdTable fd).inUse

-- An int made from a count that the caller gave as uint32_t.
def returned (count : Nat) : Int := (BitVec.ofNat 32 count).toInt

def freeFd : Option Nat := (List.range' 3 (maxFds - 3)).find? fun i => !(s.fdTable i).inUse

def findOrCreate (path : Bytes) (flags : BitVec 32) : Outcome (Option Nat × VfsState) := do
  match ← vfsFindNode s.vfs path with
  | some n => .ok (some n, s.vfs)
  | none =>
    if flags &&& 0x40 = 0 then .ok (none, s.vfs)
    else
      let made ← vfsCreateFile s.vfs path
      if made.1 ≠ 0 then .ok (none, made.2)
      else .ok (← vfsFindNode made.2 path, made.2)

def sysOpen (path : Option Bytes) (flags : BitVec 32) : Outcome (Int × SyscallState) := do
  match path, freeFd s with
  | none, _ => .ok (-1, s)
  | _, none => .ok (-1, s)
  | some path, some fd =>
    match ← findOrCreate s path flags with
    | (none, vfs) => .ok (-1, { s with vfs := vfs })
    | (some n, vfs) =>
      let a ← nodeAt vfs n
      if a.isDirectory then .ok (-1, { s with vfs := vfs })
      else
        match ← vfsReadFile vfs path with
        | (none, vfs) => .ok (-1, { s with vfs := vfs })
        | (some (data, size), vfs) =>
          .ok (fd, setDescriptor { s with vfs := vfs } fd ⟨true, some path, data, size, 0, flags⟩)

-- The bytes are those the caller finds in its buffer.
def sysRead (fd : Nat) (buffer : Bool) (count : Nat) : Outcome (Int × Bytes × SyscallState) := do
  if !buffer then .ok (-1, [], s)
  else if fd = 0 then .ok (0, [], s)
  else if !validFd s fd then .ok (-1, [], s)
  else
    let file := s.fdTable fd
    if file.flags &&& 3 = 1 then .ok (-1, [], s)
    else
      let toRead := min count (file.size - file.position)
      if toRead = 0 then .ok (0, [], s)
      else
        let bytes ← copyFrom s.vfs.blocks file.data file.position toRead
        .ok (returned toRead, bytes, setDescriptor s fd (advanced file toRead))

def growBuffer (blocks : Heap Bytes) (file : FileDescriptor) (newPos : Nat) :
    Outcome (Heap Bytes × FileDescriptor) :=
  if file.size < newPos then do
    let (blocks, p) ← reallocate blocks file.data newPos
    .ok (blocks, { file with data := some p, size := newPos })
  else .ok (blocks, file)

def pointer : Option Nat → Buffer
  | none => .null
  | some p => .block p

def sysWrite (fd : Nat) (buf : Option Bytes) (count : Nat) : Outcome (Int × SyscallState) := do
  match buf with
  | none => .ok (-1, s)
  | some buf =>
    if fd = 1 ∨ fd = 2 then do
      let _ ← readBuffer s.vfs.blocks count (.bytes buf)
      .ok (returned count, s)
    else if !validFd s fd then .ok (-1, s)
    else
      let file := s.fdTable fd
      if file.flags &&& 3 = 0 then .ok (-1, s)
      else
        let (blocks, file) ← growBuffer s.vfs.blocks file (file.position + count)
        let bytes ← readBuffer blocks count (.bytes buf)
        let blocks ← copyInto blocks file.data file.position bytes
        let s := setDescriptor s fd (advanced file count)
        let (r, vfs) ← vfsWriteFile { s.vfs with blocks := blocks } (file.path.getD [])
          (pointer file.data) file.size
        .ok (if r = 0 then returned count else -1, { s with vfs := vfs })

def sysClose (fd : Nat) : Int × SyscallState :=
  if !validFd s fd then (-1, s) else (0, setDescriptor s fd unusedDescriptor)

end Calls

inductive Syscall where
  | sysOpen (path : Option Bytes) (flags : BitVec 32)
  | sysRead (fd : Nat) (buffer : Bool) (count : Nat)
  | sysWrite (fd : Nat) (buf : Option Bytes) (count : Nat)
  | sysClose (fd : Nat)
  -- the rest of the kernel and the shell at work on the same file system
  | vfs (c : VfsCall)

def syscall (s : SyscallState) : Syscall → Outcome (Int × SyscallState)
  | .sysOpen path flags => sysOpen s path flags
  | .sysRead fd buffer count => do
    let (r, _, s) ← sysRead s fd buffer count
    .ok (r, s)
  | .sysWrite fd buf count => sysWrite s fd buf count
  | .sysClose fd => .ok (sysClose s fd)
  | .vfs c => do
    let (r, vfs) ← vfsCall s.vfs c
    .ok (r, { s with vfs := vfs })

def syscallStep (s : SyscallState) (c : Syscall) : Option SyscallState :=
  match syscall s c with
  | .ok (_, s') => some s'
  | .error _ => none

def syscallInit (vfs : VfsState) : SyscallState := ⟨fun _ => unusedDescriptor, vfs⟩

def SyscallReachable (s : SyscallState) : Prop :=
  ∃ vfs calls, Reachable vfs ∧ Run syscallStep (fun _ _ => True) (syscallInit vfs) calls s

end ZoraVM.Kernel
