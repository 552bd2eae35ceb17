import ZoraVM.Vfs.HostPath

namespace ZoraVM.Vfs

open Foundation

def bytesAt (blocks : Heap Bytes) (data : Option Nat) (size : Nat) : Bytes :=
  match data with
  | none => []
  | some p => ((blocks.get p).getD []).take size

-- What a caller of vfs_read_file finds behind the pointer it gets.
def readBytes (s : VfsState) (path : Bytes) : Option Bytes :=
  match vfsReadFile s path with
  | .ok (some (data, size), s') => some (bytesAt s'.blocks data size)
  | _ => none

def contentOf (s : VfsState) (a : Attr) : Option Bytes :=
  if a.data = none then loadable s a else some (bytesAt s.blocks a.data a.size)

def OthersUnchanged (s s' : VfsState) (n : Nat) : Prop :=
  ∀ m, m ≠ n → Forest.valAt s'.nodes m = Forest.valAt s.nodes m ∧
    ∀ a p, Forest.valAt s.nodes m = some a → a.data = some p → s'.blocks.get p = s.blocks.get p

def ReadAfterWrite (s : VfsState) (path : Bytes) (n : Nat) (d : Bytes) : Prop :=
  ∀ s', vfsWriteFile s path (.bytes d) d.length = .ok (0, s') →
    readBytes s' path = some d ∧ OthersUnchanged s s' n

-- An empty node is read again from its host file, which has to be there and to be empty.
def emptyOnHost (s : VfsState) (n : Nat) (a : Attr) : Bool :=
  match a.hostPath with
  | none => false
  | some q =>
    let l := Location.resolve q
    s.host.mayRead l &&
      (s.host.fileAt l == some [] ||
        s.hostRootDirectory != [] && Location.resolve (vfsGetHostPath s n) == l && s.host.writable l)

variable {s s' : VfsState} {path : Bytes} {n : Nat} {a : Attr} {blocks : Heap Bytes}

section Written

variable (s n blocks) in
theorem nodes_written (content : Option Bytes) :
    (written s n blocks content).nodes = (storeData s n blocks content).nodes.update n
      (touched s.clock) := by
  rw [written_eq]
  rfl

theorem blocks_written (content : Option Bytes) :
    (written s n blocks content).blocks = (content.map blocks.alloc).getD blocks := by
  rw [written_eq]
  cases content <;> rfl

theorem valAt_written (blocks : Heap Bytes) (ha : Forest.valAt s.nodes n = some a)
    (content : Option Bytes) :
    Forest.valAt (written s n blocks content).nodes n =
      some (touched s.clock (withData (content.map fun _ => blocks.size)
        ((content.map List.length).getD 0) a)) := by
  rw [nodes_written, Forest.valAt_update_self, valAt_storeData ha]
  rfl

theorem valAt_written_of_ne {m : Nat} (hm : m ≠ n) (content : Option Bytes) :
    Forest.valAt (written s n blocks content).nodes m = Forest.valAt s.nodes m := by
  rw [nodes_written, Forest.valAt_update_of_ne _ hm]
  cases content <;> exact Forest.valAt_update_of_ne _ hm

theorem nodes_storeData (s : VfsState) (n : Nat) (blocks : Heap Bytes) (content : Option Bytes) :
    (storeData s n blocks content).nodes = s.nodes.update n
      (withData (content.map fun _ => blocks.size) ((content.map List.length).getD 0)) := by
  cases content <;> rfl

theorem find_written (content : Option Bytes) :
    vfsFindNode (written s n blocks content) path = vfsFindNode s path := by
  have hroot : (written s n blocks content).root = s.root := by
    rw [written_eq]
    cases content <;> rfl
  simp only [vfsFindNode, hroot, nodes_written, nodes_storeData, Forest.live_update]
  rw [Forest.walk_update (name_touched _), Forest.walk_update (name_withData _ _)]

theorem identity_written (content : Option Bytes) :
    (written s n blocks content).identity = s.identity := by
  rw [written_eq]
  cases content <;> rfl

theorem hostPath_written (content : Option Bytes) :
    vfsGetHostPath (updateNode (storeData s n blocks content) n (touched s.clock)) n =
      vfsGetHostPath s n := by
  have hroot : (storeData s n blocks content).hostRootDirectory = s.hostRootDirectory := by
    cases content <;> rfl
  simp only [vfsGetHostPath, updateNode, nodes_storeData, hroot, Forest.size_update]
  rw [hostPathFrom_update (name_touched _), hostPathFrom_update (name_withData _ _)]

theorem host_written (blocks : Heap Bytes) (ha : Forest.valAt s.nodes n = some a)
    (hfile : a.isDirectory = false) (content : Option Bytes) :
    (written s n blocks content).host =
      if s.hostRootDirectory = [] then s.host
      else (s.host.openWrite (vfsGetHostPath s n) (content.getD [])).2 := by
  have hroot : (updateNode (storeData s n blocks content) n (touched s.clock)).hostRootDirectory =
      s.hostRootDirectory := by cases content <;> rfl
  have hhost : (updateNode (storeData s n blocks content) n (touched s.clock)).host = s.host := by
    cases content <;> rfl
  have hval : Forest.valAt (updateNode (storeData s n blocks content) n (touched s.clock)).nodes n =
      some (touched s.clock (withData (content.map fun _ => blocks.size)
        ((content.map List.length).getD 0) a)) := by
    rw [updateNode, Forest.valAt_update_self, valAt_storeData ha]
    rfl
  have hcontent : nodeContent (updateNode (storeData s n blocks content) n (touched s.clock))
      (touched s.clock (withData (content.map fun _ => blocks.size)
        ((content.map List.length).getD 0) a)) = content.getD [] := by
    cases content with
    | none => rfl
    | some b => simp [nodeContent, touched, withData, updateNode, storeData]
  unfold written
  by_cases hr : s.hostRootDirectory = []
  · simp [hr, hhost]
  · simp only [if_neg hr, vfsSyncToHost, hroot, hval, hhost, hostPath_written, hcontent]
    simp [touched, withData, hfile]

end Written

section Law

theorem othersUnchanged_written (hs : Sound s.nodes s.blocks s.root)
    (ha : Forest.valAt s.nodes n = some a) (hfree : freeData s.blocks a.data = .ok blocks)
    (content : Option Bytes) : OthersUnchanged s (written s n blocks content) n := by
  intro m hm
  refine ⟨valAt_written_of_ne hm content, fun b p hb hp => ?_⟩
  have hkeep := hs.freed_keeps ha hfree hm hb hp
  rw [blocks_written]
  cases content with
  | none => exact hkeep
  | some d =>
    have hne : p ≠ blocks.size := by
      rw [Sound.size_freeData hfree]
      exact Nat.ne_of_lt (hs.lt_size hb hp)
    rw [Option.map_some, Option.getD_some, Heap.get_alloc_of_ne hne, hkeep]

theorem readBytes_eq (hfind : vfsFindNode s path = .ok (some n))
    (ha : Forest.valAt s.nodes n = some a) (hfile : a.isDirectory = false)
    (hperm : permits s.identity a s.identity.vfsCurrentUser (permRead >>> 6) = true) :
    readBytes s path =
      if a.data = none then loadable s a else some (bytesAt s.blocks a.data a.size) := by
  unfold readBytes
  rw [vfsReadFile_eq hfind ha hfile hperm]
  cases hdata : a.data with
  | some p => simp
  | none =>
    cases loadable s a with
    | none => simp
    | some content => simp [bytesAt, loaded]

theorem vfsReadFile_denied (hfind : vfsFindNode s path = .ok (some n))
    (ha : Forest.valAt s.nodes n = some a)
    (hperm : permits s.identity a s.identity.vfsCurrentUser (permRead >>> 6) = false) :
    vfsReadFile s path = .ok (none, s) := by
  have hcheck := vfsCheckPermission_eq hfind ha s.identity.vfsCurrentUser (permRead >>> 6)
  cases hdir : a.isDirectory <;>
    simp [vfsReadFile, hfind, nodeAt_of_valAt ha, hdir, hcheck, hperm, bind, Except.bind]

theorem readBytes_of_file (hfind : vfsFindNode s path = .ok (some n))
    (ha : Forest.valAt s.nodes n = some a) (hfile : a.isDirectory = false) :
    readBytes s path =
      if permits s.identity a s.identity.vfsCurrentUser (permRead >>> 6) = true then contentOf s a
      else none := by
  by_cases hperm : permits s.identity a s.identity.vfsCurrentUser (permRead >>> 6) = true
  · rw [readBytes_eq hfind ha hfile hperm, if_pos hperm, contentOf]
  · rw [if_neg hperm, readBytes, vfsReadFile_denied hfind ha (by simpa using hperm)]

theorem copyData_bytes (blocks : Heap Bytes) (d : Bytes) :
    copyData blocks d.length (.bytes d) = .ok (if d = [] then none else some d) := by
  cases d with
  | nil => rfl
  | cons c d => simp [copyData, readBuffer, Functor.map, Except.map]

variable (hfind : vfsFindNode s path = .ok (some n)) (ha : Forest.valAt s.nodes n = some a)
  (hfile : a.isDirectory = false)
  (hread : permits s.identity a s.identity.vfsCurrentUser (permRead >>> 6) = true)

include hfind ha hfile hread in
theorem readBytes_written (content : Option Bytes) :
    readBytes (written s n blocks content) path =
      match content with
      | some b => some b
      | none => loadable (written s n blocks none) { a with data := none } := by
  have hval := valAt_written blocks ha content
  have hfind' : vfsFindNode (written s n blocks content) path = .ok (some n) := by
    rw [find_written, hfind]
  rw [readBytes_eq hfind' hval hfile (by rw [identity_written]; exact hread)]
  cases content with
  | none => rfl
  | some b => simp [touched, withData, bytesAt, blocks_written]

theorem loadable_nil_iff : loadable s a = some [] ↔
    a.isDirectory = false ∧ ∃ q, a.hostPath = some q ∧ s.host.openRead q = some [] := by
  cases hd : a.isDirectory with
  | true => simp [loadable, hd]
  | false =>
    cases hq : a.hostPath with
    | none => simp [loadable, hd, hq]
    | some q =>
      cases ho : s.host.openRead q with
      | none => simp [loadable, hd, hq, ho]
      | some content =>
        by_cases hc : content = []
        · simp [loadable, hd, hq, ho, hc, Option.filter]
        · simp [loadable, hd, hq, ho, hc, Option.filter]

include ha hfile in
theorem loadable_written_nil (blocks : Heap Bytes) :
    loadable (written s n blocks none) { a with data := none } = some [] ↔
      emptyOnHost s n a = true := by
  rw [loadable_nil_iff]
  have hhost := host_written blocks ha hfile none
  cases hq : a.hostPath with
  | none => simp [hq, emptyOnHost]
  | some q =>
    by_cases hr : s.hostRootDirectory = []
    · rw [if_pos hr] at hhost
      simp [emptyOnHost, hq, hfile, hhost, hr, Host.openRead]
    · rw [if_neg hr] at hhost
      simp only [hfile, true_and, Option.some.injEq, exists_eq_left', hhost, Option.getD_none,
        Host.openRead_openWrite]
      by_cases hsame : Location.resolve q = Location.resolve (vfsGetHostPath s n)
      · by_cases hw : s.host.writable (Location.resolve q) = true
        · simp [emptyOnHost, hq, hr, ← hsame, hw]
        · simp [emptyOnHost, hq, ← hsame, hw, Host.openRead]
      · simp [emptyOnHost, hq, hsame, Ne.symm hsame, Host.openRead]

include hfind ha hfile hread in
theorem readAfterWrite_written (blocks : Heap Bytes) (d : Bytes) :
    readBytes (written s n blocks (if d = [] then none else some d)) path = some d ↔
      d ≠ [] ∨ emptyOnHost s n a = true := by
  rw [readBytes_written hfind ha hfile hread]
  by_cases hd : d = []
  · subst hd
    simpa using loadable_written_nil ha hfile blocks
  · simp [hd]

end Law

theorem read_after_write_iff (hreach : Reachable s) (hfind : vfsFindNode s path = .ok (some n))
    (ha : Forest.valAt s.nodes n = some a) (hfile : a.isDirectory = false ∧ a.isSymlink = false)
    (hread : permits s.identity a s.identity.vfsCurrentUser (permRead >>> 6) = true)
    (hwrite : permits s.identity a s.identity.vfsCurrentUser (permWrite >>> 6) = true) (d : Bytes) :
    (∃ s', vfsWriteFile s path (.bytes d) d.length = .ok (0, s')) ∧
      (ReadAfterWrite s path n d ↔ d ≠ [] ∨ emptyOnHost s n a = true) := by
  obtain ⟨calls, hcalls⟩ := hreach
  have hs := hcalls.consistent (vfsFindNode_ok hfind).1
  obtain ⟨blocks, hfree⟩ := hs.freeData_ok ha
  have hcall := vfsWriteFile_eq hfind ha hfile.1 hwrite hfree (copyData_bytes blocks d)
  refine ⟨⟨_, hcall⟩, ?_⟩
  rw [← readAfterWrite_written hfind ha hfile.1 hread blocks d]
  constructor
  · intro h
    exact (h _ hcall).1
  · intro h s' hs'
    obtain ⟨_, rfl⟩ := Prod.mk.inj (Except.ok.inj (hcall.symm.trans hs'))
    exact ⟨h, othersUnchanged_written hs ha hfree _⟩

def oneFile : VfsState := ran (fun _ _ => true) (openHost []) [.createFile (str "/f")]

def newFile : Attr :=
  ⟨str "f", false, false, none, 0, none, none, defaultFilePerms, str "guest", str "users", 0, 0⟩

theorem reachable_oneFile : Reachable oneFile := by
  have hreach := reachableBy_ran (fun _ _ => true) (openHost []) [.createFile (str "/f")]
    (by decide +kernel) (by decide +kernel)
  exact ⟨_, hreach.mono fun _ _ _ => trivial⟩

theorem find_oneFile : vfsFindNode oneFile (str "/f") = .ok (some 7) := by
  rw [vfsFindNode_of_live (by decide +kernel)]
  exact congrArg Except.ok (by decide +kernel)

theorem valAt_oneFile : Forest.valAt oneFile.nodes 7 = some newFile := by decide +kernel

theorem read_after_write_iff_text :
    (∃ s', vfsWriteFile oneFile (str "/f") (.bytes (str "hi")) (str "hi").length = .ok (0, s')) ∧
      (ReadAfterWrite oneFile (str "/f") 7 (str "hi") ↔
        str "hi" ≠ [] ∨ emptyOnHost oneFile 7 newFile = true) :=
  read_after_write_iff reachable_oneFile find_oneFile valAt_oneFile ⟨rfl, rfl⟩ (by decide +kernel)
    (by decide +kernel) (str "hi")

theorem empty_write_unreadable :
    ¬ ∀ (s : VfsState) (path : Bytes) (n : Nat) (a : Attr) (d : Bytes), Reachable s →
      vfsFindNode s path = .ok (some n) → Forest.valAt s.nodes n = some a →
      a.isDirectory = false ∧ a.isSymlink = false →
      permits s.identity a s.identity.vfsCurrentUser (permRead >>> 6) = true →
      permits s.identity a s.identity.vfsCurrentUser (permWrite >>> 6) = true →
      ReadAfterWrite s path n d := by
  intro hall
  have hlaw := hall oneFile (str "/f") 7 newFile [] reachable_oneFile find_oneFile valAt_oneFile
    ⟨rfl, rfl⟩ (by decide +kernel) (by decide +kernel)
  have hwrite : vfsWriteFile oneFile (str "/f") (.bytes []) 0 =
      .ok (0, written oneFile 7 oneFile.blocks none) :=
    vfsWriteFile_eq find_oneFile valAt_oneFile rfl (by decide +kernel) rfl rfl
  exact absurd (hlaw _ hwrite).1 (by decide +kernel)

end ZoraVM.Vfs
