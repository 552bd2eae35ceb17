import ZoraVM.Kernel.Descriptors
import ZoraVM.Vfs.Inversion

namespace ZoraVM.Kernel

open Foundation Vfs

variable {s s' : SyscallState} {fd count : Nat} {path : Bytes} {flags : BitVec 32} {r : Int}

theorem validFd_iff : validFd s fd = true ↔ 3 ≤ fd ∧ fd < maxFds ∧ (s.fdTable fd).inUse = true := by
  simp [validFd, and_assoc]

theorem setDescriptor_self (s : SyscallState) (fd : Nat) (file : FileDescriptor) :
    (setDescriptor s fd file).fdTable fd = file := if_pos rfl

theorem setDescriptor_of_ne (s : SyscallState) {fd fd' : Nat} (h : fd' ≠ fd) (file : FileDescriptor) :
    (setDescriptor s fd file).fdTable fd' = s.fdTable fd' := if_neg h

theorem position_advanced (file : FileDescriptor) (count : Nat) :
    (advanced file count).position = file.position + count := rfl

theorem setDescriptor_still (s : SyscallState) (fd : Nat) :
    setDescriptor s fd (advanced (s.fdTable fd) 0) = s := by
  have hsame : (fun i => if i = fd then advanced (s.fdTable fd) 0 else s.fdTable i) = s.fdTable := by
    funext i
    split
    · next heq => rw [heq, advanced, Nat.add_zero]
    · rfl
  rw [setDescriptor, hsame]

theorem freeFd_some (h : freeFd s = some fd) : 3 ≤ fd ∧ fd < maxFds := by
  have hmem := List.mem_of_find?_eq_some h
  simp only [List.mem_range'_1] at hmem
  simp only [maxFds] at hmem ⊢
  omega

theorem sysOpen_cases (h : sysOpen s (some path) flags = .ok (r, s')) :
    (freeFd s = none ∧ r = -1 ∧ s' = s) ∨
    ∃ fd found vfs, freeFd s = some fd ∧ findOrCreate s path flags = .ok (found, vfs) ∧
      ((found = none ∧ r = -1 ∧ s' = { s with vfs := vfs }) ∨
        ∃ n a, found = some n ∧ Forest.valAt vfs.nodes n = some a ∧
          ((a.isDirectory = true ∧ r = -1 ∧ s' = { s with vfs := vfs }) ∨
            ∃ content vfs', a.isDirectory = false ∧ vfsReadFile vfs path = .ok (content, vfs') ∧
              ((content = none ∧ r = -1 ∧ s' = { s with vfs := vfs' }) ∨
                ∃ data size, content = some (data, size) ∧ r = fd ∧
                  s' = setDescriptor { s with vfs := vfs' } fd
                    ⟨true, some path, data, size, 0, flags⟩))) := by
  cases hfree : freeFd s with
  | none =>
    simp only [sysOpen, hfree] at h
    obtain ⟨rfl, rfl⟩ := Prod.mk.inj (Except.ok.inj h)
    exact .inl ⟨rfl, rfl, rfl⟩
  | some fd =>
    simp only [sysOpen, hfree] at h
    obtain ⟨⟨found, vfs⟩, hfound, h⟩ := Outcome.bind_eq_ok.mp h
    refine .inr ⟨fd, found, vfs, rfl, hfound, ?_⟩
    cases found with
    | none =>
      obtain ⟨rfl, rfl⟩ := Prod.mk.inj (Except.ok.inj h)
      exact .inl ⟨rfl, rfl, rfl⟩
    | some n =>
      obtain ⟨a, ha, h⟩ := Outcome.bind_eq_ok.mp h
      refine .inr ⟨n, a, rfl, nodeAt_ok ha, ?_⟩
      split at h
      · next hdir =>
        obtain ⟨rfl, rfl⟩ := Prod.mk.inj (Except.ok.inj h)
        exact .inl ⟨hdir, rfl, rfl⟩
      · next hfile =>
        obtain ⟨⟨content, vfs'⟩, hread, h⟩ := Outcome.bind_eq_ok.mp h
        refine .inr ⟨content, vfs', by simpa using hfile, hread, ?_⟩
        cases content with
        | none =>
          obtain ⟨rfl, rfl⟩ := Prod.mk.inj (Except.ok.inj h)
          exact .inl ⟨rfl, rfl, rfl⟩
        | some content =>
          obtain ⟨data, size⟩ := content
          obtain ⟨rfl, rfl⟩ := Prod.mk.inj (Except.ok.inj h)
          exact .inr ⟨data, size, rfl, rfl, rfl⟩

theorem findOrCreate_cases {found : Option Nat} {vfs : VfsState}
    (h : findOrCreate s path flags = .ok (found, vfs)) :
    vfs = s.vfs ∨ ∃ r, vfsCreateFile s.vfs path = .ok (r, vfs) := by
  obtain ⟨node, _, hrest⟩ := Outcome.bind_eq_ok.mp h
  cases node with
  | some n => exact .inl (Prod.mk.inj (Except.ok.inj hrest)).2.symm
  | none =>
    dsimp only at hrest
    split at hrest
    · exact .inl (Prod.mk.inj (Except.ok.inj hrest)).2.symm
    · obtain ⟨⟨r, t⟩, hmade, hrest⟩ := Outcome.bind_eq_ok.mp hrest
      split at hrest
      · obtain ⟨_, rfl⟩ := Prod.mk.inj (Except.ok.inj hrest)
        exact .inr ⟨r, hmade⟩
      · obtain ⟨_, _, hrest⟩ := Outcome.bind_eq_ok.mp hrest
        obtain ⟨_, rfl⟩ := Prod.mk.inj (Except.ok.inj hrest)
        exact .inr ⟨r, hmade⟩

theorem sysOpen_induct {P : VfsState → Prop} {path : Option Bytes} (h₀ : P s.vfs)
    (hcreate : ∀ {v v' name r}, P v → vfsCreateFile v name = .ok (r, v') → P v')
    (hread : ∀ {v v' name found}, P v → vfsReadFile v name = .ok (found, v') → P v')
    (h : sysOpen s path flags = .ok (r, s')) : P s'.vfs := by
  cases path with
  | none =>
    obtain ⟨_, rfl⟩ := Prod.mk.inj (Except.ok.inj h)
    exact h₀
  | some path =>
    rcases sysOpen_cases h with ⟨_, _, rfl⟩ | ⟨fd, found, vfs, _, hfound, hrest⟩
    · exact h₀
    · have hvfs : P vfs := by
        rcases findOrCreate_cases hfound with rfl | ⟨_, hmade⟩
        · exact h₀
        · exact hcreate h₀ hmade
      rcases hrest with ⟨_, _, rfl⟩ | ⟨n, a, _, _, ⟨_, _, rfl⟩ | ⟨content, vfs', _, hloaded, hrest⟩⟩
      · exact hvfs
      · exact hvfs
      · have hvfs' := hread hvfs hloaded
        rcases hrest with ⟨_, _, rfl⟩ | ⟨_, _, _, _, rfl⟩
        · exact hvfs'
        · exact hvfs'

theorem sysRead_cases {buffer : Bool} {bytes : Bytes}
    (h : sysRead s fd buffer count = .ok (r, bytes, s')) :
    s' = s ∨ (validFd s fd = true ∧ ∃ toRead, toRead ≤ (s.fdTable fd).size - (s.fdTable fd).position ∧
      s' = setDescriptor s fd (advanced (s.fdTable fd) toRead)) := by
  have hstate : ∀ {r' : Int} {b : Bytes} {t : SyscallState},
      (Except.ok (r', b, t) : Outcome (Int × Bytes × SyscallState)) = .ok (r, bytes, s') →
      s' = t := by
    intro r' b t heq
    obtain ⟨_, hpair⟩ := Prod.mk.inj (Except.ok.inj heq)
    exact (Prod.mk.inj hpair).2.symm
  unfold sysRead at h
  split at h
  · exact .inl (hstate h)
  split at h
  · exact .inl (hstate h)
  split at h
  · exact .inl (hstate h)
  next hvalid =>
  dsimp only at h
  split at h
  · exact .inl (hstate h)
  split at h
  · exact .inl (hstate h)
  obtain ⟨_, _, h⟩ := Outcome.bind_eq_ok.mp h
  exact .inr ⟨by simpa using hvalid, _, Nat.min_le_right _ _, hstate h⟩

theorem sysWrite_cases {buf : Option Bytes} (h : sysWrite s fd buf count = .ok (r, s')) :
    (s' = s ∧ (r = -1 ∨ fd = 1 ∨ fd = 2)) ∨
      ∃ bytes blocks file blocks' r' vfs, validFd s fd = true ∧ buf = some bytes ∧
      growBuffer s.vfs.blocks (s.fdTable fd) ((s.fdTable fd).position + count) = .ok (blocks, file) ∧
      count ≤ bytes.length ∧
      copyInto blocks file.data file.position (bytes.take count) = .ok blocks' ∧
      vfsWriteFile { s.vfs with blocks := blocks' } (file.path.getD []) (pointer file.data)
        file.size = .ok (r', vfs) ∧
      r = (if r' = 0 then returned count else -1) ∧
      s' = { setDescriptor s fd (advanced file count) with vfs := vfs } := by
  cases buf with
  | none =>
    obtain ⟨rfl, rfl⟩ := Prod.mk.inj (Except.ok.inj h)
    exact .inl ⟨rfl, .inl rfl⟩
  | some buf =>
    dsimp only [sysWrite] at h
    split at h
    · next hstd =>
      obtain ⟨_, _, h⟩ := Outcome.bind_eq_ok.mp h
      exact .inl ⟨(Prod.mk.inj (Except.ok.inj h)).2.symm, .inr hstd⟩
    · split at h
      · obtain ⟨rfl, rfl⟩ := Prod.mk.inj (Except.ok.inj h)
        exact .inl ⟨rfl, .inl rfl⟩
      · next hvalid =>
        split at h
        · obtain ⟨rfl, rfl⟩ := Prod.mk.inj (Except.ok.inj h)
          exact .inl ⟨rfl, .inl rfl⟩
        · obtain ⟨⟨blocks, file⟩, hgrow, h⟩ := Outcome.bind_eq_ok.mp h
          obtain ⟨bytes, hbytes, h⟩ := Outcome.bind_eq_ok.mp h
          obtain ⟨blocks', hcopy, h⟩ := Outcome.bind_eq_ok.mp h
          obtain ⟨⟨r', vfs⟩, hwrite, h⟩ := Outcome.bind_eq_ok.mp h
          obtain ⟨rfl, rfl⟩ := Prod.mk.inj (Except.ok.inj h)
          simp only [readBuffer] at hbytes
          split at hbytes
          · next hfit =>
            obtain rfl := Except.ok.inj hbytes
            exact .inr ⟨buf, blocks, file, blocks', r', vfs, by simpa using hvalid, rfl, hgrow,
              hfit, hcopy, hwrite, rfl, rfl⟩
          · cases hbytes

theorem sysClose_cases (h : sysClose s fd = (r, s')) :
    s' = s ∨ s' = setDescriptor s fd unusedDescriptor := by
  unfold sysClose at h
  split at h
  · exact .inl (Prod.mk.inj h).2.symm
  · exact .inr (Prod.mk.inj h).2.symm

theorem sysRead_unused {buffer : Bool} (h : validFd s fd = false) (hstdin : fd ≠ 0) :
    sysRead s fd buffer count = .ok (-1, [], s) := by
  cases buffer <;> simp [sysRead, h, hstdin]

theorem sysWrite_unused {buf : Option Bytes} (h : validFd s fd = false) (hout : fd ≠ 1)
    (herr : fd ≠ 2) : sysWrite s fd buf count = .ok (-1, s) := by
  cases buf <;> simp [sysWrite, h, hout, herr]

theorem sysClose_unused (h : validFd s fd = false) : sysClose s fd = (-1, s) := by
  simp [sysClose, h]

theorem freeFd_lowest (h : freeFd s = some fd) :
    (s.fdTable fd).inUse = false ∧ ∀ i, 3 ≤ i → i < fd → (s.fdTable i).inUse = true := by
  obtain ⟨hfree, _, hlow⟩ := List.find?_range'_eq_some.mp h
  refine ⟨by simpa using hfree, fun i hi hlt => ?_⟩
  simpa using hlow i hi hlt

theorem growBuffer_file {blocks blocks' : Heap Bytes} {file file' : FileDescriptor} {newPos : Nat}
    (h : growBuffer blocks file newPos = .ok (blocks', file')) :
    newPos ≤ file'.size ∧ file'.position = file.position ∧ file'.inUse = file.inUse := by
  unfold growBuffer at h
  split at h
  · obtain ⟨⟨b, p⟩, _, h⟩ := Outcome.bind_eq_ok.mp h
    obtain ⟨_, rfl⟩ := Prod.mk.inj (Except.ok.inj h)
    exact ⟨Nat.le_refl _, rfl, rfl⟩
  · next hfit =>
    obtain ⟨_, rfl⟩ := Prod.mk.inj (Except.ok.inj h)
    exact ⟨Nat.not_lt.mp hfit, rfl, rfl⟩

theorem syscallStep_ok {c : Syscall} (h : syscallStep s c = some s') :
    ∃ r, syscall s c = .ok (r, s') := by
  unfold syscallStep at h
  split at h
  · next r t hcall =>
    obtain rfl := Option.some.inj h
    exact ⟨r, hcall⟩
  · cases h

end ZoraVM.Kernel
