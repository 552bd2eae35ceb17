import ZoraVM.Vfs.Soundness

namespace ZoraVM.Vfs

open Foundation

structure SameKind (f : Attr → Attr) : Prop where
  isDirectory : ∀ a, (f a).isDirectory = a.isDirectory
  hostPath : ∀ a, (f a).hostPath = a.hostPath

-- What the calls do to the nodes is linking, updating and unlinking; a property of the nodes that
-- these three keep is kept by every call.
structure NodeInvariant (P : Forest Attr → Prop) : Prop where
  link : ∀ {nodes parent v}, P nodes → IsDirectory nodes parent →
    (v.isDirectory = true → v.hostPath = none) → P (Forest.link nodes parent v)
  update : ∀ {nodes n f}, P nodes → SameKind f → P (Forest.update nodes n f)
  unlink : ∀ {nodes n}, P nodes → P (Forest.unlink nodes n)

theorem sameKind_withData (data : Option Nat) (size : Nat) : SameKind (withData data size) :=
  ⟨fun _ => rfl, fun _ => rfl⟩

theorem sameKind_touched (clock : Nat) : SameKind (touched clock) := ⟨fun _ => rfl, fun _ => rfl⟩

theorem sameKind_withMode (mode : BitVec 32) (clock : Nat) : SameKind (withMode mode clock) :=
  ⟨fun _ => rfl, fun _ => rfl⟩

theorem sameKind_withOwner (owner group : Option Bytes) (clock : Nat) :
    SameKind (withOwner owner group clock) := ⟨fun _ => rfl, fun _ => rfl⟩

namespace NodeInvariant

variable {P : Forest Attr → Prop} {s s' : VfsState} {n parent : Nat} {path : Bytes} {r : Int}
  {v : Attr}

theorem addNode (hP : NodeInvariant P) (h : P s.nodes) (hp : IsDirectory s.nodes parent)
    (hv : v.isDirectory = true → v.hostPath = none) : P (addNode s parent v).nodes := by
  rw [addNode_eq]
  exact hP.link h hp hv

theorem mkdir (hP : NodeInvariant P) (h : P s.nodes) (hcall : vfsMkdir s path = .ok (r, s')) :
    P s'.nodes := by
  rcases vfsMkdir_cases hcall with rfl | ⟨_, _, _, _, hfind, _, _, rfl⟩
  · exact h
  · exact hP.addNode h (isDirectory_of_find hfind) fun _ => rfl

theorem createFile (hP : NodeInvariant P) (h : P s.nodes)
    (hcall : vfsCreateFile s path = .ok (r, s')) : P s'.nodes := by
  rcases vfsCreateFile_cases hcall with ⟨_, rfl⟩ | ⟨_, _, _, _, hfind, _, rfl⟩
  · exact h
  · exact hP.addNode h (isDirectory_of_find hfind) fun hdir => by cases hdir

theorem createSymlink (hP : NodeInvariant P) (h : P s.nodes) {target : Bytes}
    (hcall : vfsCreateSymlink s path target = .ok (r, s')) : P s'.nodes := by
  rcases vfsCreateSymlink_cases hcall with rfl | ⟨_, hfind, rfl⟩
  · exact h
  · exact hP.link h (isDirectory_of_find hfind) fun hdir => by cases hdir

theorem deleteFile (hP : NodeInvariant P) (h : P s.nodes)
    (hcall : vfsDeleteFile s path = .ok (r, s')) : P s'.nodes := by
  rcases vfsDeleteFile_cases hcall with ⟨_, rfl⟩ | ⟨_, _, _, _, _, _, _, _, rfl⟩
  · exact h
  · exact hP.unlink h

theorem rmdir (hP : NodeInvariant P) (h : P s.nodes) (hcall : vfsRmdir s path = .ok (r, s')) :
    P s'.nodes := by
  rcases vfsRmdir_cases hcall with ⟨_, rfl⟩ | ⟨_, _, _, _, _, _, _, rfl⟩
  · exact h
  · exact hP.unlink h

theorem written (hP : NodeInvariant P) (h : P s.nodes) (n : Nat) (blocks : Heap Bytes)
    (content : Option Bytes) : P (written s n blocks content).nodes := by
  have hstored : P (storeData s n blocks content).nodes := by
    cases content with
    | none => exact hP.update h (sameKind_withData none 0)
    | some b => exact hP.update h (sameKind_withData (some blocks.size) b.length)
  rw [written_eq]
  exact hP.update hstored (sameKind_touched s.clock)

theorem writeFile (hP : NodeInvariant P) (h : P s.nodes) {data : Buffer} {size : Nat}
    (hcall : vfsWriteFile s path data size = .ok (r, s')) : P s'.nodes := by
  rcases vfsWriteFile_cases hcall with ⟨_, rfl⟩ | ⟨n, _, blocks, content, _, _, _, _, _, _, _, rfl⟩
  · exact h
  · exact hP.written h n blocks content

theorem readFile (hP : NodeInvariant P) (h : P s.nodes) {found : Option (Option Nat × Nat)}
    (hcall : vfsReadFile s path = .ok (found, s')) : P s'.nodes := by
  rcases vfsReadFile_cases hcall with ⟨_, rfl⟩ | ⟨n, _, _, _, _, _, hload⟩
  · exact h
  · rcases hload with ⟨_, _, _, rfl⟩ | ⟨_, content, _, _, rfl⟩
    · exact h
    · exact hP.update h (sameKind_withData (some s.blocks.size) content.length)

theorem chmod (hP : NodeInvariant P) (h : P s.nodes) {mode : BitVec 32}
    (hcall : vfsChmod s path mode = .ok (r, s')) : P s'.nodes := by
  rcases vfsChmod_cases hcall with rfl | ⟨_, _, _, _, _, rfl⟩
  · exact h
  · exact hP.update h (sameKind_withMode mode s.clock)

theorem chown (hP : NodeInvariant P) (h : P s.nodes) {owner group : Option Bytes}
    (hcall : vfsChown s path owner group = .ok (r, s')) : P s'.nodes := by
  rcases vfsChown_cases hcall with rfl | ⟨_, _, _, rfl⟩
  · exact h
  · exact hP.update h (sameKind_withOwner owner group s.clock)

theorem mount (hP : NodeInvariant P) (h : P s.nodes) {hostPath : Bytes}
    (hcall : vfsMountPersistent s path hostPath = .ok (r, s')) : P s'.nodes :=
  mount_induct (P := fun t => P t.nodes) (Q := fun t => P t.nodes) h (hP.mkdir h)
    (fun ht _ => ht) (fun hu hp _ hv => hP.link hu hp hv) (fun ht => ht) hcall

theorem step (hP : NodeInvariant P) (h : P s.nodes) {c : VfsCall} (hstep : vfsStep s c = some s') :
    P s'.nodes := by
  obtain ⟨r, hcall⟩ := vfsStep_eq hstep
  cases c with
  | mkdir path => exact hP.mkdir h hcall
  | createFile path => exact hP.createFile h hcall
  | createSymlink link target => exact hP.createSymlink h hcall
  | deleteFile path => exact hP.deleteFile h hcall
  | rmdir path => exact hP.rmdir h hcall
  | writeFile path data => exact hP.writeFile h hcall
  | readFile path =>
    obtain ⟨⟨found, t⟩, hread, hrest⟩ := Outcome.bind_eq_ok.mp hcall
    obtain ⟨rfl, rfl⟩ := Prod.mk.inj (Except.ok.inj hrest)
    exact hP.readFile h hread
  | chmod path mode => exact hP.chmod h hcall
  | chown path owner group => exact hP.chown h hcall
  | chdir path =>
    rcases vfsChdir_cases hcall with rfl | ⟨_, rfl⟩
    · exact h
    · exact h
  | mountPersistent vmPath hostPath => exact hP.mount h hcall
  | setHostRoot hostRoot =>
    obtain ⟨rfl, rfl⟩ := Prod.mk.inj (Except.ok.inj hcall)
    exact h
  | identify identity =>
    obtain ⟨rfl, rfl⟩ := Prod.mk.inj (Except.ok.inj hcall)
    exact h
  | hostChange entries mayRead mayWrite =>
    obtain ⟨rfl, rfl⟩ := Prod.mk.inj (Except.ok.inj hcall)
    exact h
  | wait clock =>
    obtain ⟨rfl, rfl⟩ := Prod.mk.inj (Except.ok.inj hcall)
    exact h

theorem reachable (hP : NodeInvariant P) (hblank : ∀ junk, P (Forest.single (rootNode junk)))
    {allowed : VfsState → VfsCall → Prop} {calls : List VfsCall}
    (h : ReachableBy allowed calls s) : P s.nodes := by
  refine h.invariant (P := fun t => P t.nodes) (fun junk _ _ => hblank junk) ?_ ?_
  · exact fun s s' path r _ hs hcall => hP.mkdir hs hcall
  · exact fun s c s' hs _ hstep => hP.step hs hstep

end NodeInvariant

end ZoraVM.Vfs
