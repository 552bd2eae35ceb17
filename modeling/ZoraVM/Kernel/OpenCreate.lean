import ZoraVM.Kernel.DescriptorUpdates
import ZoraVM.Vfs.TreeShape

namespace ZoraVM.Kernel

open Foundation Vfs

variable {s s' : SyscallState} {path : Bytes} {flags : BitVec 32} {r : Int}

section Statements

variable (s : SyscallState) (path : Bytes) (flags : BitVec 32)

def parentPath (path : Bytes) : Bytes :=
  match splitLast slash path with
  | some (dir, _) => if dir = [] then [slash] else dir
  | none => [slash]

def MustCreate : Prop :=
  vfsFindNode s.vfs path = .ok none ∧ flags &&& 0x40 ≠ 0 ∧ (freeFd s).isSome = true ∧
    ∃ parent, findDirectory s.vfs (parentPath path) = .ok (some parent)

def OpensEmpty : Prop :=
  ∃ (fd : Nat) (s' : SyscallState), sysOpen s (some path) flags = .ok ((fd : Int), s') ∧
    3 ≤ fd ∧ fd ≤ 255 ∧ (s'.fdTable fd).position = 0 ∧ (s'.fdTable fd).size = 0

def FailsCleanly : Prop :=
  ∀ s', sysOpen s (some path) flags = .ok (-1, s') →
    s'.vfs.nodes = s.vfs.nodes ∧ s'.vfs.blocks = s.vfs.blocks ∧ s'.fdTable = s.fdTable

def AllOrNothing : Prop := (MustCreate s path flags → OpensEmpty s path flags) ∧
  FailsCleanly s path flags

end Statements

section Shape

theorem shaped_sysOpen {path : Option Bytes} (h : Shaped s.vfs)
    (hcall : sysOpen s path flags = .ok (r, s')) : Shaped s'.vfs :=
  sysOpen_induct h (fun hv hmade => shaped_createFile hv hmade)
    (fun hv hread => shaped_readFile hv hread) hcall

theorem shaped_syscall {c : Syscall} (h : Shaped s.vfs) (hcall : syscall s c = .ok (r, s')) :
    Shaped s'.vfs := by
  cases c with
  | sysOpen path flags => exact shaped_sysOpen h hcall
  | sysRead fd buffer count =>
    obtain ⟨⟨r', bytes, t⟩, hread, hrest⟩ := Outcome.bind_eq_ok.mp hcall
    obtain ⟨_, rfl⟩ := Prod.mk.inj (Except.ok.inj hrest)
    rcases sysRead_cases hread with rfl | ⟨_, toRead, _, rfl⟩
    · exact h
    · exact h
  | sysWrite fd buf count =>
    rcases sysWrite_cases hcall with ⟨rfl, _⟩ | ⟨_, _, _, blocks, _, vfs, _, _, _, _, _, hwrite, _, rfl⟩
    · exact h
    · exact shaped_writeFile (s := { s.vfs with blocks := blocks }) h hwrite
  | sysClose fd =>
    rcases sysClose_cases (Except.ok.inj hcall) with rfl | rfl
    · exact h
    · exact h
  | vfs c =>
    obtain ⟨⟨r', vfs⟩, hvfs, hrest⟩ := Outcome.bind_eq_ok.mp hcall
    obtain ⟨_, rfl⟩ := Prod.mk.inj (Except.ok.inj hrest)
    exact shaped_call h hvfs

theorem SyscallReachable.shaped (h : SyscallReachable s) : Shaped s.vfs := by
  obtain ⟨vfs, calls, ⟨_, hvfs⟩, hrun⟩ := h
  have hstart : Shaped (syscallInit vfs).vfs := hvfs.consistent.shaped
  refine hrun.invariant (P := fun s => Shaped s.vfs) hstart fun s c s' hs _ hstep => ?_
  obtain ⟨r, hcall⟩ := syscallStep_ok hstep
  exact shaped_syscall hs hcall

end Shape

section Creating

theorem parentPath_of_split {dir name : Bytes} (h : splitPath path = .ok (dir, name)) :
    parentPath path = dir := by
  cases hlast : splitLast slash path with
  | some ends =>
    obtain ⟨above, last⟩ := ends
    simp only [splitPath, hlast] at h
    simp only [parentPath, hlast]
    split at h
    · cases h
    · exact (Prod.mk.inj (Except.ok.inj h)).1
  | none =>
    simp only [splitPath, hlast] at h
    simp only [parentPath, hlast]
    split at h
    · cases h
    · exact (Prod.mk.inj (Except.ok.inj h)).1

theorem not_read_made {parent : Nat} {name : Bytes} {data : Option Nat} {size : Nat} {t : VfsState}
    (h : Shaped s.vfs) (hfind : vfsFindNode s.vfs path = .ok none)
    (hp : IsDirectory s.vfs.nodes parent) :
    vfsReadFile (addNode s.vfs parent (vfsCreateFileNode s.vfs name)) path ≠
      .ok (some (data, size), t) := by
  intro hread
  obtain ⟨hl, hwalk⟩ := vfsFindNode_ok hfind
  have htree := (h hl).tree
  rw [addNode_eq] at hread
  rcases vfsReadFile_cases hread with ⟨hnone, _⟩ | ⟨n, a, hn, ha, _, _, hcontent⟩
  · cases hnone
  · have hnew : n = s.vfs.nodes.size := by
      rcases htree.walk_link_of_none hp.live hwalk with hw | hw
      · cases hw.symm.trans (vfsFindNode_ok hn).2
      · exact (Option.some.inj (hw.symm.trans (vfsFindNode_ok hn).2)).symm
    subst hnew
    have hval := Forest.valAt_link hp.live (vfsCreateFileNode s.vfs name) s.vfs.nodes.size
    rw [if_pos rfl] at hval
    obtain rfl := Option.some.inj (ha.symm.trans hval)
    rcases hcontent with ⟨p, hp, _⟩ | ⟨_, content, hload, _⟩
    · cases hp
    · cases hload

theorem not_opensEmpty (h : Shaped s.vfs) (hmust : MustCreate s path flags) :
    ¬ OpensEmpty s path flags := by
  rintro ⟨fd, s', hopen, hlow, _⟩
  obtain ⟨hfind, hflag, _, _⟩ := hmust
  have hpos : (fd : Int) ≠ -1 := by omega
  rcases sysOpen_cases hopen with ⟨_, hr, _⟩ | ⟨_, found, vfs, _, hfound, hrest⟩
  · exact hpos hr
  · rcases hrest with ⟨_, hr, _⟩ | ⟨n, a, rfl, _, ⟨_, hr, _⟩ | ⟨content, vfs', _, hread, hrest⟩⟩
    · exact hpos hr
    · exact hpos hr
    · rcases hrest with ⟨_, hr, _⟩ | ⟨data, size, rfl, _, _⟩
      · exact hpos hr
      · simp only [findOrCreate, hfind, bind, Except.bind, if_neg hflag] at hfound
        obtain ⟨⟨r, t⟩, hmade, hfound⟩ := Outcome.bind_eq_ok.mp hfound
        rcases vfsCreateFile_cases hmade with ⟨rfl, _⟩ | ⟨dir, name, parent, _, hdir, rfl, rfl⟩
        · simp at hfound
        · simp only [ne_eq, not_true, if_false] at hfound
          obtain ⟨_, _, hfound⟩ := Outcome.bind_eq_ok.mp hfound
          obtain ⟨_, rfl⟩ := Prod.mk.inj (Except.ok.inj hfound)
          exact not_read_made h hfind (isDirectory_of_find hdir) hread

theorem findOrCreate_unchanged {found : Option Nat} {vfs : VfsState}
    (hno : ¬ MustCreate s path flags) (hfree : (freeFd s).isSome = true)
    (hcall : findOrCreate s path flags = .ok (found, vfs)) : vfs = s.vfs := by
  obtain ⟨node, hfind, hrest⟩ := Outcome.bind_eq_ok.mp hcall
  cases node with
  | some n => exact (Prod.mk.inj (Except.ok.inj hrest)).2.symm
  | none =>
    dsimp only at hrest
    split at hrest
    · exact (Prod.mk.inj (Except.ok.inj hrest)).2.symm
    · next hflag =>
      obtain ⟨⟨r, t⟩, hmade, hrest⟩ := Outcome.bind_eq_ok.mp hrest
      rcases vfsCreateFile_cases hmade with ⟨rfl, rfl⟩ | ⟨dir, name, parent, hsplit, hdir, _⟩
      · exact (Prod.mk.inj (Except.ok.inj hrest)).2.symm
      · rw [← parentPath_of_split hsplit] at hdir
        exact absurd ⟨hfind, hflag, hfree, parent, hdir⟩ hno

theorem failsCleanly (hno : ¬ MustCreate s path flags) : FailsCleanly s path flags := by
  intro s' hopen
  rcases sysOpen_cases hopen with ⟨_, _, rfl⟩ | ⟨fd, found, vfs, hfree, hfound, hrest⟩
  · exact ⟨rfl, rfl, rfl⟩
  · obtain rfl := findOrCreate_unchanged hno (by rw [hfree]; rfl) hfound
    rcases hrest with ⟨_, _, rfl⟩ | ⟨n, a, _, _, ⟨_, _, rfl⟩ | ⟨content, vfs', _, hread, hrest⟩⟩
    · exact ⟨rfl, rfl, rfl⟩
    · exact ⟨rfl, rfl, rfl⟩
    · rcases hrest with ⟨rfl, _, rfl⟩ | ⟨_, _, _, hr, _⟩
      · rcases vfsReadFile_cases hread with ⟨_, rfl⟩ | ⟨_, _, _, _, _, _, hcontent⟩
        · exact ⟨rfl, rfl, rfl⟩
        · rcases hcontent with ⟨_, _, hsome, _⟩ | ⟨_, _, _, hsome, _⟩
          · cases hsome
          · cases hsome
      · exact absurd hr (by omega)

end Creating

section Law

theorem open_all_or_nothing_iff (hreach : SyscallReachable s) :
    AllOrNothing s path flags ↔ ¬ MustCreate s path flags := by
  constructor
  · rintro ⟨hopens, _⟩ hmust
    exact not_opensEmpty hreach.shaped hmust (hopens hmust)
  · intro hno
    exact ⟨fun hmust => absurd hmust hno, failsCleanly hno⟩

theorem nothingOpen_reachable : SyscallReachable nothingOpen := by
  have hrun := reachableBy_ran (fun _ _ => true) (openHost []) [] (by decide +kernel) rfl
  exact ⟨Vfs.booted (openHost []), [], ⟨[], hrun.mono fun _ _ _ => trivial⟩, .start⟩

theorem open_all_or_nothing_iff_root :
    AllOrNothing nothingOpen (str "/tmp") 0x42 ↔ ¬ MustCreate nothingOpen (str "/tmp") 0x42 :=
  open_all_or_nothing_iff nothingOpen_reachable

theorem created_file_not_opened :
    ¬ ∀ (s : SyscallState) (path : Bytes) (flags : BitVec 32), SyscallReachable s →
      AllOrNothing s path flags := by
  intro hall
  have hclean := (hall nothingOpen (str "/tmp/a") 0x42
    nothingOpen_reachable).2
  have hcall : (sysOpen nothingOpen (some (str "/tmp/a")) 0x42).toOption.map
      (fun p => (p.1, p.2.vfs.nodes.size)) = some (-1, 8) := by decide +kernel
  cases hopen : sysOpen nothingOpen (some (str "/tmp/a")) 0x42 with
  | error f =>
    rw [hopen] at hcall
    cases hcall
  | ok p =>
    obtain ⟨r, s'⟩ := p
    rw [hopen] at hcall
    obtain ⟨rfl, hsize⟩ := Prod.mk.inj (Option.some.inj hcall)
    rw [(hclean s' hopen).1] at hsize
    exact absurd hsize (by decide +kernel)

end Law

end ZoraVM.Kernel
