import ZoraVM.Vfs.Soundness

namespace ZoraVM.Vfs

open Foundation

def Shaped (s : VfsState) : Prop := s.nodes.live s.root = true → Shape s.nodes s.root

section Calls

variable {s s' : VfsState} {n parent : Nat} {path : Bytes} {r : Int}

theorem shaped_addNode (h : Shape s.nodes s.root) (hp : IsDirectory s.nodes parent) (v : Attr) :
    Shape (addNode s parent v).nodes (addNode s parent v).root := by
  rw [addNode_eq]
  exact h.link hp v

theorem shaped_mkdir (h : Shaped s) (hcall : vfsMkdir s path = .ok (r, s')) : Shaped s' := by
  rcases vfsMkdir_cases hcall with rfl | ⟨_, _, _, _, hfind, _, _, rfl⟩
  · exact h
  · have hs := h (findDirectory_ok_some hfind).1
    exact fun _ => shaped_addNode hs (isDirectory_of_find hfind) _

theorem shaped_createFile (h : Shaped s) (hcall : vfsCreateFile s path = .ok (r, s')) :
    Shaped s' := by
  rcases vfsCreateFile_cases hcall with ⟨_, rfl⟩ | ⟨_, _, _, _, hfind, _, rfl⟩
  · exact h
  · have hs := h (findDirectory_ok_some hfind).1
    exact fun _ => shaped_addNode hs (isDirectory_of_find hfind) _

theorem shape_written (h : Shape s.nodes s.root) (n : Nat) (blocks : Heap Bytes)
    (content : Option Bytes) :
    Shape (written s n blocks content).nodes (written s n blocks content).root := by
  have hstored : Shape (storeData s n blocks content).nodes s.root := by
    cases content with
    | none => exact h.update (f := withData none 0) n fun _ _ => rfl
    | some b => exact h.update (f := withData (some blocks.size) b.length) n fun _ _ => rfl
  have hroot : (storeData s n blocks content).root = s.root := by cases content <;> rfl
  rw [written_eq]
  exact hroot ▸ hstored.update (f := touched s.clock) n fun _ _ => rfl

theorem shaped_writeFile {data : Buffer} {size : Nat} (h : Shaped s)
    (hcall : vfsWriteFile s path data size = .ok (r, s')) : Shaped s' := by
  rcases vfsWriteFile_cases hcall with
    ⟨_, rfl⟩ | ⟨n, _, blocks, content, hfind, _, _, _, _, _, _, rfl⟩
  · exact h
  · exact fun _ => shape_written (h (vfsFindNode_ok hfind).1) n blocks content

theorem shaped_readFile {found : Option (Option Nat × Nat)} (h : Shaped s)
    (hcall : vfsReadFile s path = .ok (found, s')) : Shaped s' := by
  rcases vfsReadFile_cases hcall with ⟨_, rfl⟩ | ⟨n, _, hfind, _, _, _, hload⟩
  · exact h
  · rcases hload with ⟨_, _, _, rfl⟩ | ⟨_, content, _, _, rfl⟩
    · exact h
    · exact fun _ => (h (vfsFindNode_ok hfind).1).update n fun _ _ => rfl

theorem shaped_mount {hostPath : Bytes} (h : Shaped s)
    (hcall : vfsMountPersistent s path hostPath = .ok (r, s')) : Shaped s' :=
  mount_induct (Q := fun t => Shape t.nodes t.root) h (shaped_mkdir h) (fun ht hlive => ht hlive)
    (fun hu hdir _ _ => hu.link hdir _) (fun hs _ => hs) hcall

theorem shaped_createSymlink {target : Bytes} (h : Shaped s)
    (hcall : vfsCreateSymlink s path target = .ok (r, s')) : Shaped s' := by
  rcases vfsCreateSymlink_cases hcall with rfl | ⟨_, hfind, rfl⟩
  · exact h
  · have hs := h (findDirectory_ok_some hfind).1
    exact fun _ => hs.link (isDirectory_of_find hfind) _

theorem shaped_deleteFile (h : Shaped s) (hcall : vfsDeleteFile s path = .ok (r, s')) :
    Shaped s' := by
  rcases vfsDeleteFile_cases hcall with ⟨_, rfl⟩ | ⟨n, a, _, hfind, ha, hfile, _, _, rfl⟩
  · exact h
  · have hs := h (vfsFindNode_ok hfind).1
    have hne : n ≠ s.root := by
      rintro rfl
      exact Bool.false_ne_true (hfile.symm.trans (hs.root_directory ha))
    exact fun _ => hs.unlink (hs.leaves ha hfile) hne

theorem shaped_rmdir (h : Shaped s) (hcall : vfsRmdir s path = .ok (r, s')) : Shaped s' := by
  rcases vfsRmdir_cases hcall with ⟨_, rfl⟩ | ⟨n, _, hfind, _, _, hleaf, _, rfl⟩
  · exact h
  · have hs := h (vfsFindNode_ok hfind).1
    intro hlive
    have hne : s.root ≠ n := (Forest.live_unlink.mp hlive).1
    exact hs.unlink hleaf hne.symm

theorem shaped_chmod {mode : BitVec 32} (h : Shaped s)
    (hcall : vfsChmod s path mode = .ok (r, s')) : Shaped s' := by
  rcases vfsChmod_cases hcall with rfl | ⟨n, _, hfind, _, _, rfl⟩
  · exact h
  · exact fun _ => (h (vfsFindNode_ok hfind).1).update n fun _ _ => rfl

theorem shaped_chown {owner group : Option Bytes} (h : Shaped s)
    (hcall : vfsChown s path owner group = .ok (r, s')) : Shaped s' := by
  rcases vfsChown_cases hcall with rfl | ⟨n, hfind, _, rfl⟩
  · exact h
  · exact fun _ => (h (vfsFindNode_ok hfind).1).update n fun _ _ => rfl

theorem shaped_chdir (h : Shaped s) (hcall : vfsChdir s path = .ok (r, s')) : Shaped s' := by
  rcases vfsChdir_cases hcall with rfl | ⟨_, rfl⟩
  · exact h
  · exact h

theorem shaped_call {c : VfsCall} (h : Shaped s) (hcall : vfsCall s c = .ok (r, s')) :
    Shaped s' := by
  cases c with
  | mkdir path => exact shaped_mkdir h hcall
  | createFile path => exact shaped_createFile h hcall
  | createSymlink link target => exact shaped_createSymlink h hcall
  | deleteFile path => exact shaped_deleteFile h hcall
  | rmdir path => exact shaped_rmdir h hcall
  | writeFile path data => exact shaped_writeFile h hcall
  | readFile path =>
    obtain ⟨⟨found, t⟩, hread, hrest⟩ := Outcome.bind_eq_ok.mp hcall
    obtain ⟨rfl, rfl⟩ := Prod.mk.inj (Except.ok.inj hrest)
    exact shaped_readFile h hread
  | chmod path mode => exact shaped_chmod h hcall
  | chown path owner group => exact shaped_chown h hcall
  | chdir path => exact shaped_chdir h hcall
  | mountPersistent vmPath hostPath => exact shaped_mount h hcall
  | setHostRoot hostRoot =>
    obtain ⟨rfl, rfl⟩ := Prod.mk.inj (Except.ok.inj hcall)
    exact h
  | identify identity =>
    obtain ⟨rfl, rfl⟩ := Prod.mk.inj (Except.ok.inj hcall)
    exact h
  | hostChange entries mayRead mayWrite =>
    obtain ⟨rfl, rfl⟩ := Prod.mk.inj (Except.ok.inj hcall)
    exact h
  | wait clock =>
    obtain ⟨rfl, rfl⟩ := Prod.mk.inj (Except.ok.inj hcall)
    exact h

theorem Consistent.shaped (h : Consistent s) : Shaped s := fun hlive => (h hlive).toShape

end Calls

end ZoraVM.Vfs
