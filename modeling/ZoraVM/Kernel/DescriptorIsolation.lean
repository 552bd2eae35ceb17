import ZoraVM.Kernel.DescriptorUpdates

namespace ZoraVM.Kernel

open Foundation Vfs

variable {s s' t : SyscallState} {c : Syscall} {fd f count : Nat} {r : Int}

def InUse (s : SyscallState) (fd : Nat) : Prop := (s.fdTable fd).inUse = true

def LowestUnused (s : SyscallState) (fd : Nat) : Prop :=
  3 ≤ fd ∧ fd < maxFds ∧ ¬ InUse s fd ∧ ∀ i, 3 ≤ i → i < fd → InUse s i

structure SameFile (a b : FileDescriptor) : Prop where
  path : b.path = a.path
  flags : b.flags = a.flags
  position : b.position = a.position

def Syscall.names : Syscall → Option Nat
  | .sysRead fd _ _ => some fd
  | .sysWrite fd _ _ => some fd
  | .sysClose fd => some fd
  | _ => none

def Syscall.onStream : Syscall → Bool
  | .sysRead fd _ _ => fd = 0
  | .sysWrite fd _ _ => fd = 1 ∨ fd = 2
  | _ => false

structure Isolated (s : SyscallState) : Prop where
  within : ∀ fd, InUse s fd → (s.fdTable fd).position ≤ (s.fdTable fd).size
  lowest : ∀ path flags r s', sysOpen s path flags = .ok (r, s') → r ≠ -1 →
    ∃ fd : Nat, r = fd ∧ LowestUnused s fd ∧ InUse s' fd
  stays : ∀ fd calls t, InUse s fd → Run syscallStep (fun _ c => c ≠ .sysClose fd) s calls t →
    InUse t fd
  apart : ∀ c f r s', c.names = some f → syscall s c = .ok (r, s') → ∀ fd, fd ≠ f →
    SameFile (s.fdTable fd) (s'.fdTable fd)
  unused : ∀ c f r s', c.names = some f → syscall s c = .ok (r, s') → ¬ InUse s f →
    (c.onStream = false → r = -1) ∧ s'.fdTable = s.fdTable

section Steps

structure Touched (s s' : SyscallState) (fd : Nat) (file : FileDescriptor) : Prop where
  self : s'.fdTable fd = file
  others : ∀ i, i ≠ fd → s'.fdTable i = s.fdTable i

theorem touched_set (s : SyscallState) (fd : Nat) (file : FileDescriptor) (vfs : VfsState) :
    Touched s { setDescriptor s fd file with vfs := vfs } fd file :=
  ⟨setDescriptor_self s fd file, fun _ hne => setDescriptor_of_ne s hne file⟩

theorem sysOpen_touched {path : Option Bytes} {flags : BitVec 32}
    (h : sysOpen s path flags = .ok (r, s')) :
    (r = -1 ∧ s'.fdTable = s.fdTable) ∨ ∃ fd : Nat, r = fd ∧ LowestUnused s fd ∧
      ∃ path data size, Touched s s' fd ⟨true, path, data, size, 0, flags⟩ := by
  cases path with
  | none =>
    obtain ⟨rfl, rfl⟩ := Prod.mk.inj (Except.ok.inj h)
    exact .inl ⟨rfl, rfl⟩
  | some path =>
    rcases sysOpen_cases h with ⟨_, rfl, rfl⟩ | ⟨fd, found, vfs, hfree, _, hrest⟩
    · exact .inl ⟨rfl, rfl⟩
    rcases hrest with ⟨_, rfl, rfl⟩ | ⟨n, a, _, _, ⟨_, rfl, rfl⟩ | ⟨content, vfs', _, _, hrest⟩⟩
    · exact .inl ⟨rfl, rfl⟩
    · exact .inl ⟨rfl, rfl⟩
    rcases hrest with ⟨_, rfl, rfl⟩ | ⟨data, size, _, rfl, rfl⟩
    · exact .inl ⟨rfl, rfl⟩
    · obtain ⟨hlow, hhigh⟩ := freeFd_some hfree
      obtain ⟨hunused, hbelow⟩ := freeFd_lowest hfree
      refine .inr ⟨fd, rfl, ⟨hlow, hhigh, by simp [InUse, hunused], hbelow⟩, some path, data, size, ?_⟩
      exact touched_set s fd _ vfs'

theorem named_touched (hs : ∀ fd, InUse s fd → (s.fdTable fd).position ≤ (s.fdTable fd).size)
    (hname : c.names = some f) (h : syscall s c = .ok (r, s')) :
    s'.fdTable = s.fdTable ∨ (validFd s f = true ∧ ∃ file, Touched s s' f file ∧
      file.position ≤ file.size ∧ (file.inUse = true ∨ c = .sysClose f)) := by
  cases c with
  | sysOpen path flags => cases hname
  | sysRead fd buffer count =>
    obtain rfl := Option.some.inj hname
    obtain ⟨⟨r', bytes, t⟩, hread, hrest⟩ := Outcome.bind_eq_ok.mp h
    obtain ⟨_, rfl⟩ := Prod.mk.inj (Except.ok.inj hrest)
    rcases sysRead_cases hread with rfl | ⟨hvalid, toRead, hbound, rfl⟩
    · exact .inl rfl
    · obtain ⟨_, _, huse⟩ := validFd_iff.mp hvalid
      have hle := hs fd huse
      refine .inr ⟨hvalid, _, touched_set s fd _ s.vfs, ?_, .inl huse⟩
      change (s.fdTable fd).position + toRead ≤ (s.fdTable fd).size
      omega
  | sysWrite fd buf count =>
    obtain rfl := Option.some.inj hname
    rcases sysWrite_cases h with
      ⟨rfl, _⟩ | ⟨bytes, blocks, file, blocks', r', vfs, hvalid, _, hgrow, _, _, _, _, rfl⟩
    · exact .inl rfl
    · obtain ⟨_, _, huse⟩ := validFd_iff.mp hvalid
      obtain ⟨hsize, hposition, hkept⟩ := growBuffer_file hgrow
      refine .inr ⟨hvalid, _, touched_set s fd _ vfs, ?_, .inl (hkept.trans huse)⟩
      change file.position + count ≤ file.size
      omega
  | sysClose fd =>
    obtain rfl := Option.some.inj hname
    rcases Bool.eq_false_or_eq_true (validFd s fd) with hvalid | hvalid
    · rcases sysClose_cases (Except.ok.inj h) with rfl | rfl
      · exact .inl rfl
      · exact .inr ⟨hvalid, _, touched_set s fd _ s.vfs, Nat.le_refl _, .inr rfl⟩
    · rw [syscall, sysClose_unused hvalid] at h
      obtain ⟨_, rfl⟩ := Prod.mk.inj (Except.ok.inj h)
      exact .inl rfl
  | vfs c => cases hname

def TableKept (s : SyscallState) : Prop :=
  ∀ fd, InUse s fd → 3 ≤ fd ∧ fd < maxFds ∧ (s.fdTable fd).position ≤ (s.fdTable fd).size

theorem TableKept.within (hs : TableKept s) (fd : Nat) (huse : InUse s fd) :
    (s.fdTable fd).position ≤ (s.fdTable fd).size := (hs fd huse).2.2

theorem step_touched (hs : TableKept s) (h : syscall s c = .ok (r, s')) :
    s'.fdTable = s.fdTable ∨ ∃ fd file, 3 ≤ fd ∧ fd < maxFds ∧ Touched s s' fd file ∧
      file.position ≤ file.size ∧ (file.inUse = true ∨ c = .sysClose fd) := by
  cases hname : c.names with
  | some f =>
    rcases named_touched hs.within hname h with hsame | ⟨hvalid, file, htouched, hfile, huse⟩
    · exact .inl hsame
    · obtain ⟨hlow, hhigh, _⟩ := validFd_iff.mp hvalid
      exact .inr ⟨f, file, hlow, hhigh, htouched, hfile, huse⟩
  | none =>
    cases c with
    | sysOpen path flags =>
      rcases sysOpen_touched h with ⟨_, hsame⟩ | ⟨fd, _, ⟨hlow, hhigh, _⟩, path, data, size, htouched⟩
      · exact .inl hsame
      · exact .inr ⟨fd, _, hlow, hhigh, htouched, Nat.zero_le _, .inl rfl⟩
    | vfs c =>
      obtain ⟨⟨r', vfs⟩, _, hrest⟩ := Outcome.bind_eq_ok.mp h
      obtain ⟨_, rfl⟩ := Prod.mk.inj (Except.ok.inj hrest)
      exact .inl rfl
    | _ => cases hname

theorem tableKept_step (hs : TableKept s) (h : syscall s c = .ok (r, s')) : TableKept s' := by
  rcases step_touched hs h with hsame | ⟨f, file, hlow, hhigh, htouched, hfile, _⟩
  · intro fd huse
    rw [InUse, hsame] at huse
    rw [hsame]
    exact hs fd huse
  · intro fd huse
    rcases Decidable.em (fd = f) with rfl | hne
    · rw [htouched.self]
      exact ⟨hlow, hhigh, hfile⟩
    · rw [InUse, htouched.others fd hne] at huse
      rw [htouched.others fd hne]
      exact hs fd huse

theorem inUse_step (hs : TableKept s) (h : syscall s c = .ok (r, s')) (huse : InUse s fd)
    (hopen : c ≠ .sysClose fd) : InUse s' fd := by
  rcases step_touched hs h with hsame | ⟨f, file, _, _, htouched, _, hkept⟩
  · rwa [InUse, hsame]
  · rcases Decidable.em (fd = f) with rfl | hne
    · rw [InUse, htouched.self]
      exact hkept.resolve_right hopen
    · rwa [InUse, htouched.others fd hne]

theorem inUse_run {calls : List Syscall} (hs : TableKept s) (huse : InUse s fd)
    (hrun : Run syscallStep (fun _ c => c ≠ .sysClose fd) s calls t) : InUse t fd := by
  have hboth : TableKept t ∧ InUse t fd := by
    refine hrun.invariant (P := fun t => TableKept t ∧ InUse t fd) ⟨hs, huse⟩ ?_
    rintro t c t' ⟨ht, hin⟩ hc hstep
    obtain ⟨r, hcall⟩ := syscallStep_ok hstep
    exact ⟨tableKept_step ht hcall, inUse_step ht hcall hin hc⟩
  exact hboth.2

theorem SyscallReachable.tableKept (h : SyscallReachable s) : TableKept s := by
  obtain ⟨vfs, calls, _, hrun⟩ := h
  refine hrun.invariant (P := TableKept) ?_ ?_
  · intro fd huse
    cases huse
  · intro s c s' hs _ hstep
    obtain ⟨r, hcall⟩ := syscallStep_ok hstep
    exact tableKept_step hs hcall

theorem invalid_of_unused (h : ¬ InUse s fd) : validFd s fd = false := by
  rw [Bool.eq_false_iff]
  intro hvalid
  exact h (validFd_iff.mp hvalid).2.2

theorem unused_refused (hname : c.names = some f) (hstream : c.onStream = false)
    (hunused : ¬ InUse s f) (h : syscall s c = .ok (r, s')) : r = -1 := by
  have hvalid := invalid_of_unused hunused
  cases c with
  | sysRead fd buffer count =>
    obtain rfl := Option.some.inj hname
    have hstdin : fd ≠ 0 := of_decide_eq_false hstream
    rw [syscall, sysRead_unused hvalid hstdin] at h
    exact (Prod.mk.inj (Except.ok.inj h)).1.symm
  | sysWrite fd buf count =>
    obtain rfl := Option.some.inj hname
    obtain ⟨hout, herr⟩ := not_or.mp (of_decide_eq_false hstream)
    rw [syscall, sysWrite_unused hvalid hout herr] at h
    exact (Prod.mk.inj (Except.ok.inj h)).1.symm
  | sysClose fd =>
    obtain rfl := Option.some.inj hname
    rw [syscall, sysClose_unused hvalid] at h
    exact (Prod.mk.inj (Except.ok.inj h)).1.symm
  | _ => cases hname

end Steps

section Law

theorem descriptors_isolated (h : SyscallReachable s) : Isolated s := by
  have hs := h.tableKept
  refine ⟨hs.within, ?_, fun fd calls t huse hrun => inUse_run hs huse hrun, ?_, ?_⟩
  · intro path flags r s' hopen hr
    rcases sysOpen_touched hopen with ⟨hfails, _⟩ | ⟨fd, hfd, hlowest, path, data, size, htouched⟩
    · exact absurd hfails hr
    · refine ⟨fd, hfd, hlowest, ?_⟩
      rw [InUse, htouched.self]
  · intro c f r s' hname hcall fd hne
    rcases named_touched hs.within hname hcall with hsame | ⟨_, file, htouched, _⟩
    · rw [hsame]
      exact ⟨rfl, rfl, rfl⟩
    · rw [htouched.others fd hne]
      exact ⟨rfl, rfl, rfl⟩
  · intro c f r s' hname hcall hunused
    refine ⟨fun hstream => unused_refused hname hstream hunused hcall, ?_⟩
    rcases named_touched hs.within hname hcall with hsame | ⟨hvalid, _⟩
    · exact hsame
    · rw [invalid_of_unused hunused] at hvalid
      cases hvalid

theorem descriptors_isolated_two : Isolated (called twoOpened) :=
  descriptors_isolated (syscallReachable_called (by decide +kernel))

theorem read_stdin_not_refused :
    ¬ ∀ (s s' : SyscallState) (c : Syscall) (f : Nat) (r : Int), SyscallReachable s →
      c.names = some f → syscall s c = .ok (r, s') → ¬ InUse s f →
      r = -1 ∧ s'.fdTable = s.fdTable := by
  intro hall
  have hran : (exec (guarded syscallStep fun _ _ => true) nothingOpen []).isSome = true := rfl
  have hunused : ¬ InUse nothingOpen 0 := by simp [InUse, nothingOpen, syscallInit, unusedDescriptor]
  have h := (hall nothingOpen nothingOpen (.sysRead 0 true 1) 0 0 (syscallReachable_called hran)
    rfl rfl hunused).1
  exact absurd h (by decide)

end Law

end ZoraVM.Kernel
