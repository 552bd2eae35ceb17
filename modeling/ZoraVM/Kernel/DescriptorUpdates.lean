import ZoraVM.Kernel.DescriptorCalls
import ZoraVM.Vfs.ReadWrite

namespace ZoraVM.Kernel

open Foundation Vfs

structure Write where
  fd : Nat
  offset : Nat
  bytes : Bytes
  deriving DecidableEq, Repr

def Write.Covers (w : Write) (o : Nat) : Prop := w.offset ≤ o ∧ o < w.offset + w.bytes.length

instance (w : Write) (o : Nat) : Decidable (w.Covers o) := inferInstanceAs (Decidable (_ ∧ _))

def writeOf (s : SyscallState) : Syscall → List Write
  | .sysWrite fd (some buf) count => [⟨fd, (s.fdTable fd).position, buf.take count⟩]
  | _ => []

def loggedStep (s : SyscallState × List Write) (c : Syscall) : Option (SyscallState × List Write) :=
  (syscallStep s.1 c).map fun s' => (s', s.2 ++ writeOf s.1 c)

def fullWrite (d e : Nat) (s : SyscallState) : Syscall → Bool
  | .sysWrite fd (some buf) count =>
    (fd == d || fd == e) &&
      match sysWrite s fd (some buf) count with
      | .ok (r, _) => r == count
      | .error _ => false
  | _ => false

def writesThrough (fd : Nat) : Syscall → Bool
  | .sysWrite fd' _ _ => fd' == fd
  | _ => false

def openOn (s : SyscallState) (path : Bytes) (fd : Nat) : Bool :=
  (s.fdTable fd).inUse && (s.fdTable fd).path == some path

def sameBuffer (s : SyscallState) (d e : Nat) : Bool :=
  (s.fdTable d).data == (s.fdTable e).data && (s.fdTable d).size == (s.fdTable e).size

def mayRead (s : VfsState) (path : Bytes) : Bool :=
  match vfsFindNode s path with
  | .ok (some n) =>
    (Forest.valAt s.nodes n).any fun a => permits s.identity a s.identity.vfsCurrentUser (permRead >>> 6)
  | _ => false

def NoneLost (s : SyscallState) (path : Bytes) (log : List Write) : Prop :=
  ∀ w ∈ log, ∀ i x, w.bytes[i]? = some x →
    (∀ w' ∈ log, w'.fd ≠ w.fd → ¬ w'.Covers (w.offset + i)) → mayRead s.vfs path = true →
      ∃ content, readBytes s.vfs path = some content ∧ content[w.offset + i]? = some x

variable {s s' : SyscallState} {fd count : Nat} {buf path : Bytes} {r : Int}

section Opened

def Opened (s : SyscallState) : Prop :=
  ∀ fd, (s.fdTable fd).inUse = true → validFd s fd = true ∧ ∃ p, (s.fdTable fd).data = some p

theorem Opened.set (h : Opened s) {file : FileDescriptor}
    (hfile : file.inUse = true → 3 ≤ fd ∧ fd < maxFds ∧ ∃ p, file.data = some p) :
    Opened (setDescriptor s fd file) := by
  intro fd' huse
  by_cases hfd : fd' = fd
  · subst hfd
    rw [setDescriptor_self] at huse ⊢
    obtain ⟨hlow, hhigh, hdata⟩ := hfile huse
    exact ⟨validFd_iff.mpr ⟨hlow, hhigh, by rwa [setDescriptor_self]⟩, hdata⟩
  · rw [setDescriptor_of_ne s hfd] at huse ⊢
    obtain ⟨hvalid, hsome⟩ := h fd' huse
    obtain ⟨hlow, hhigh, _⟩ := validFd_iff.mp hvalid
    exact ⟨validFd_iff.mpr ⟨hlow, hhigh, by rwa [setDescriptor_of_ne s hfd]⟩, hsome⟩

theorem Opened.vfs (h : Opened s) (vfs : VfsState) : Opened { s with vfs := vfs } := h

theorem growBuffer_data {blocks blocks' : Heap Bytes} {file file' : FileDescriptor} {newPos : Nat}
    (h : growBuffer blocks file newPos = .ok (blocks', file')) (hdata : ∃ p, file.data = some p) :
    ∃ p, file'.data = some p := by
  unfold growBuffer at h
  split at h
  · obtain ⟨⟨b, p⟩, _, h⟩ := Outcome.bind_eq_ok.mp h
    obtain ⟨rfl, rfl⟩ := Prod.mk.inj (Except.ok.inj h)
    exact ⟨p, rfl⟩
  · obtain ⟨rfl, rfl⟩ := Prod.mk.inj (Except.ok.inj h)
    exact hdata

theorem opened_sysOpen {path : Option Bytes} {flags : BitVec 32} (h : Opened s)
    (hcall : sysOpen s path flags = .ok (r, s')) : Opened s' := by
  cases path with
  | none =>
    obtain ⟨_, rfl⟩ := Prod.mk.inj (Except.ok.inj hcall)
    exact h
  | some path =>
    rcases sysOpen_cases hcall with ⟨_, _, rfl⟩ | ⟨fd, found, vfs, hfree, _, hrest⟩
    · exact h
    rcases hrest with ⟨_, _, rfl⟩ | ⟨n, a, _, _, ⟨_, _, rfl⟩ | ⟨content, vfs', _, hread, hrest⟩⟩
    · exact h
    · exact h
    rcases hrest with ⟨_, _, rfl⟩ | ⟨data, size, rfl, _, rfl⟩
    · exact h
    obtain ⟨hlow, hhigh⟩ := freeFd_some hfree
    have hdata : ∃ p, data = some p := by
      rcases vfsReadFile_cases hread with ⟨hnone, _⟩ | ⟨_, _, _, _, _, _, hfound⟩
      · cases hnone
      · rcases hfound with ⟨p, _, hcontent, _⟩ | ⟨_, c, _, hcontent, _⟩
        · exact ⟨p, (Prod.mk.inj (Option.some.inj hcontent)).1⟩
        · exact ⟨_, (Prod.mk.inj (Option.some.inj hcontent)).1⟩
    exact (h.vfs vfs').set fun _ => ⟨hlow, hhigh, hdata⟩

theorem opened_step {c : Syscall} (h : Opened s) (hstep : syscallStep s c = some s') :
    Opened s' := by
  obtain ⟨r, hcall⟩ := syscallStep_ok hstep
  cases c with
  | sysOpen path flags => exact opened_sysOpen h hcall
  | sysRead fd buffer count =>
    obtain ⟨⟨r', bytes, t⟩, hread, hrest⟩ := Outcome.bind_eq_ok.mp hcall
    obtain ⟨_, rfl⟩ := Prod.mk.inj (Except.ok.inj hrest)
    rcases sysRead_cases hread with rfl | ⟨hvalid, toRead, _, rfl⟩
    · exact h
    · obtain ⟨hlow, hhigh, huse⟩ := validFd_iff.mp hvalid
      exact h.set fun _ => ⟨hlow, hhigh, (h fd huse).2⟩
  | sysWrite fd buf count =>
    rcases sysWrite_cases hcall with ⟨rfl, _⟩ |
      ⟨_, blocks, file, _, _, vfs, hvalid, _, hgrow, _, _, _, _, rfl⟩
    · exact h
    · obtain ⟨hlow, hhigh, huse⟩ := validFd_iff.mp hvalid
      have hdata := growBuffer_data hgrow (h fd huse).2
      have hset : Opened (setDescriptor s fd (advanced file count)) :=
        h.set fun _ => ⟨hlow, hhigh, hdata⟩
      exact hset.vfs vfs
  | sysClose fd =>
    rcases sysClose_cases (Except.ok.inj hcall) with rfl | rfl
    · exact h
    · exact h.set fun huse => nomatch huse
  | vfs c =>
    obtain ⟨⟨r', vfs⟩, _, hrest⟩ := Outcome.bind_eq_ok.mp hcall
    obtain ⟨_, rfl⟩ := Prod.mk.inj (Except.ok.inj hrest)
    exact h.vfs vfs

theorem SyscallReachable.opened (h : SyscallReachable s) : Opened s := by
  obtain ⟨vfs, calls, _, hrun⟩ := h
  refine hrun.invariant (P := Opened) ?_ fun _ _ _ hs _ hstep => opened_step hs hstep
  intro fd huse
  cases huse

end Opened

section Buffers

structure Rewritten (before after : Heap Bytes) (file file' : FileDescriptor) (bytes : Bytes)
    (q p : Nat) (old new : Bytes) : Prop where
  was : before.get q = some old
  data : file'.data = some p
  inUse : file'.inUse = file.inUse
  block : after.get p = some new
  path : file'.path = file.path
  position : file'.position = file.position
  fits : file.position + bytes.length ≤ file'.size
  grows : file.size ≤ file'.size
  same : p = q → file'.size = file.size
  keeps : ∀ {o x}, o < file'.size → (o < file.position ∨ file.position + bytes.length ≤ o) →
    old[o]? = some x → new[o]? = some x
  puts : ∀ {i x}, bytes[i]? = some x → new[file.position + i]? = some x
  freed : p ≠ q → after.get q = none
  dead : ∀ {k}, k < before.size → before.get k = none → after.get k = none
  size : before.size ≤ after.size

variable {before middle after : Heap Bytes} {file file' : FileDescriptor} {bytes old : Bytes} {q : Nat}

theorem rewritten_in_place (hdata : file.data = some q)
    (hfit : ¬ file.size < file.position + bytes.length)
    (hcopy : copyInto before (some q) file.position bytes = .ok after) :
    ∃ old new, Rewritten before after file file bytes q q old new := by
  obtain ⟨old, hold, hlen, rfl⟩ := copyInto_some hcopy
  have hlt := Heap.lt_size_of_get hold
  refine ⟨old, splice old file.position bytes, hold, hdata, rfl, Heap.get_put_self hlt, rfl,
    rfl, Nat.le_of_not_lt hfit, Nat.le_refl _, fun _ => rfl, ?_, ?_, fun hne => absurd rfl hne, ?_, ?_⟩
  · intro o x _ hout hx
    rw [getElem?_splice_outside hlen hout, hx]
  · exact fun hx => getElem?_splice_inside (by omega) hx
  · intro k _ hk
    have hne : k ≠ q := by
      rintro rfl
      cases hk.symm.trans hold
    rw [Heap.get_put_of_ne hne, hk]
  · rw [Heap.size_put]

theorem rewritten_grown {p : Nat} (hdata : file.data = some q)
    (hgrow : file.size < file.position + bytes.length)
    (hmove : reallocate before (some q) (file.position + bytes.length) = .ok (middle, p))
    (hcopy : copyInto middle (some p) file.position bytes = .ok after) :
    ∃ old new, Rewritten before after file
      { file with data := some p, size := file.position + bytes.length } bytes q p old new := by
  obtain ⟨old, hold, rfl, rfl⟩ := reallocate_some hmove
  obtain ⟨moved, hmoved, hlen, rfl⟩ := copyInto_some hcopy
  have hlt := Heap.lt_size_of_get hold
  have hfresh : ((before.free q).alloc (resize 0 (file.position + bytes.length) old)).get
      before.size = some (resize 0 (file.position + bytes.length) old) := by
    rw [← Heap.size_free before q, Heap.get_alloc_self]
  rw [hfresh] at hmoved
  obtain rfl := Option.some.inj hmoved
  have hsize : before.size <
      ((before.free q).alloc (resize 0 (file.position + bytes.length) old)).size := by simp
  refine ⟨old, _, hold, rfl, rfl, Heap.get_put_self hsize, rfl, rfl, Nat.le_refl _,
    Nat.le_of_lt hgrow, fun he => absurd he (Nat.ne_of_gt hlt), ?_, ?_, fun _ => ?_, ?_, ?_⟩
  · intro o x ho hout hx
    rw [getElem?_splice_outside hlen hout, getElem?_resize ho hx]
  · exact fun hx => getElem?_splice_inside (by omega) hx
  · have hne : q ≠ (before.free q).size := by
      rw [Heap.size_free]
      exact Nat.ne_of_lt hlt
    rw [Heap.get_put_of_ne (Nat.ne_of_lt hlt), Heap.get_alloc_of_ne hne, Heap.get_free_self]
  · intro k hk hdead
    have hne : k ≠ (before.free q).size := by
      rw [Heap.size_free]
      exact Nat.ne_of_lt hk
    have hkq : k ≠ q := by
      rintro rfl
      cases hdead.symm.trans hold
    rw [Heap.get_put_of_ne (Nat.ne_of_lt hk), Heap.get_alloc_of_ne hne, Heap.get_free_of_ne hkq, hdead]
  · rw [Heap.size_put]
    exact Nat.le_of_lt hsize

theorem rewritten_of_ok (hdata : file.data = some q)
    (hgrow : growBuffer before file (file.position + bytes.length) = .ok (middle, file'))
    (hcopy : copyInto middle file'.data file'.position bytes = .ok after) :
    ∃ p old new, Rewritten before after file file' bytes q p old new := by
  unfold growBuffer at hgrow
  split at hgrow
  · next hlt =>
    obtain ⟨⟨blocks, p⟩, hmove, hgrow⟩ := Outcome.bind_eq_ok.mp hgrow
    obtain ⟨rfl, rfl⟩ := Prod.mk.inj (Except.ok.inj hgrow)
    rw [hdata] at hmove
    exact ⟨p, rewritten_grown hdata hlt hmove hcopy⟩
  · next hfit =>
    obtain ⟨rfl, rfl⟩ := Prod.mk.inj (Except.ok.inj hgrow)
    rw [hdata] at hcopy
    exact ⟨q, rewritten_in_place hdata hfit hcopy⟩

end Buffers

section Stored

variable {t vfs : VfsState} {p size : Nat} {new : Bytes}

theorem copyData_block {blocks : Heap Bytes} {content : Option Bytes}
    (h : copyData blocks size (.block p) = .ok content) :
    (size = 0 ∧ content = none) ∨
      ∃ b, blocks.get p = some b ∧ size ≤ b.length ∧ content = some (b.take size) := by
  unfold copyData at h
  split at h
  · obtain ⟨bytes, hbytes, hcontent⟩ : ∃ bytes, readBuffer blocks size (.block p) = .ok bytes ∧
        content = some bytes := by
      cases hread : readBuffer blocks size (.block p) with
      | error e => simp [hread] at h
      | ok bytes => exact ⟨bytes, rfl, by simpa [hread, eq_comm] using h⟩
    simp only [readBuffer] at hbytes
    split at hbytes
    · cases hbytes
    · next b hb =>
      split at hbytes
      · next hlen => exact .inr ⟨b, hb, hlen, by rw [hcontent, ← Except.ok.inj hbytes]⟩
      · cases hbytes
  · next hnot =>
    obtain rfl := Except.ok.inj h
    exact .inl ⟨by simpa using hnot, rfl⟩

theorem freeData_dead {blocks blocks' : Heap Bytes} {data : Option Nat} {k : Nat}
    (h : freeData blocks data = .ok blocks') (hk : blocks.get k = none) : blocks'.get k = none := by
  cases data with
  | none => rw [freeData_none h, hk]
  | some q =>
    rw [freeData_some h, Heap.get_free]
    split
    · rfl
    · exact hk

theorem freeData_get {blocks blocks' : Heap Bytes} {data : Option Nat} {k : Nat} {b : Bytes}
    (h : freeData blocks data = .ok blocks') (hk : blocks'.get k = some b) :
    blocks.get k = some b := by
  cases data with
  | none => rwa [freeData_none h] at hk
  | some q =>
    rw [freeData_some h, Heap.get_free] at hk
    split at hk
    · cases hk
    · exact hk

theorem vfsWriteFile_block (hget : t.blocks.get p = some new)
    (h : vfsWriteFile t path (.block p) size = .ok (0, vfs)) :
    (0 < size → vfs.blocks.get p = some new ∧
      (mayRead vfs path = true → readBytes vfs path = some (new.take size))) ∧
    (∀ k, k < t.blocks.size → t.blocks.get k = none → vfs.blocks.get k = none) ∧
    t.blocks.size ≤ vfs.blocks.size := by
  rcases vfsWriteFile_cases h with
    ⟨hr, _⟩ | ⟨n, a, blocks, content, hfind, ha, hfile, _, hfree, hcopy, _, rfl⟩
  · cases hr
  · have hsize := Sound.size_freeData hfree
    rw [blocks_written]
    rcases copyData_block hcopy with ⟨rfl, rfl⟩ | ⟨b, hb, hlen, rfl⟩
    · exact ⟨fun h => absurd h (Nat.lt_irrefl 0), fun k _ hk => freeData_dead hfree hk,
        Nat.le_of_eq hsize.symm⟩
    · obtain rfl : new = b := Option.some.inj (hget.symm.trans (freeData_get hfree hb))
      have hlt := Heap.lt_size_of_get hb
      refine ⟨fun _ => ⟨Heap.get_alloc_of_get hb, fun hmay => ?_⟩, ?_, ?_⟩
      · have hperm : permits t.identity a t.identity.vfsCurrentUser (permRead >>> 6) = true := by
          have hval := valAt_written blocks ha (some (new.take size))
          simp only [mayRead, find_written, hfind, hval, identity_written, Option.any_some] at hmay
          exact hmay
        exact readBytes_written hfind ha hfile hperm (some (new.take size))
      · intro k hk hdead
        have hne : k ≠ blocks.size := by
          rw [hsize]
          exact Nat.ne_of_lt hk
        simp only [Option.map_some, Option.getD_some]
        rw [Heap.get_alloc_of_ne hne, freeData_dead hfree hdead]
      · simp only [Option.map_some, Option.getD_some, Heap.size_alloc]
        omega

end Stored

section Runs

variable {F : Nat → Prop} {log : List Write} {p size : Nat}

-- The descriptors of `F` have the buffer `p`, or one that is freed and takes no more writes; the
-- buffer has every byte it should have, and the file is what was last stored from it.
structure Intact (path : Bytes) (F : Nat → Prop) (s : SyscallState) (log : List Write)
    (p size : Nat) : Prop where
  opened : ∀ {fd}, F fd → validFd s fd = true ∧ (s.fdTable fd).path = some path
  member : ∀ {fd}, F fd → ((s.fdTable fd).data = some p ∧ (s.fdTable fd).size = size) ∨
    ∃ q, (s.fdTable fd).data = some q ∧ q < s.vfs.blocks.size ∧ s.vfs.blocks.get q = none
  within : ∀ {w}, w ∈ log → w.offset + w.bytes.length ≤ size ∧
    w.offset + w.bytes.length ≤ (s.fdTable w.fd).position
  gone : s.vfs.blocks.get p = none → ∀ w ∈ log, w.bytes = []
  holds : ∀ {buf}, s.vfs.blocks.get p = some buf → ∀ w ∈ log, ∀ i x, w.bytes[i]? = some x →
    (∀ w' ∈ log, w'.fd ≠ w.fd → ¬ w'.Covers (w.offset + i)) → buf[w.offset + i]? = some x
  stored : ∀ {buf}, s.vfs.blocks.get p = some buf → (∃ w ∈ log, w.bytes ≠ []) →
    mayRead s.vfs path = true → readBytes s.vfs path = some (buf.take size)

theorem Intact.noneLost (h : Intact path F s log p size) : NoneLost s path log := by
  intro w hw i x hx hother hmay
  obtain ⟨hlt, _⟩ := List.getElem?_eq_some_iff.mp hx
  have hne : w.bytes ≠ [] := by
    intro hnil
    simp [hnil] at hlt
  cases hbuf : s.vfs.blocks.get p with
  | none => exact absurd (h.gone hbuf w hw) hne
  | some buf =>
    refine ⟨_, h.stored hbuf ⟨w, hw, hne⟩ hmay, ?_⟩
    have hin := (h.within hw).1
    rw [List.getElem?_take_of_lt (by omega), h.holds hbuf w hw i x hx hother]

theorem Intact.start (hopened : ∀ {fd}, F fd → validFd s fd = true ∧ (s.fdTable fd).path = some path)
    (hmember : ∀ {fd}, F fd → (s.fdTable fd).data = some p ∧ (s.fdTable fd).size = size) :
    Intact path F s [] p size := by
  refine ⟨hopened, fun hfd => .inl (hmember hfd), ?_, ?_, ?_, ?_⟩
  · simp
  · simp
  · simp
  · simp

section Steps

variable {vfs : VfsState} {after : Heap Bytes} {file : FileDescriptor} {bytes old new : Bytes}
  {p' : Nat}

theorem Intact.written (h : Intact path F s log p size) (hfd : F fd)
    (hcall : sysWrite s fd (some buf) count = .ok (count, s')) :
    (buf.take count).length = count ∧ (s.fdTable fd).size = size ∧
      ∃ file after vfs p' old new,
        Rewritten s.vfs.blocks after (s.fdTable fd) file (buf.take count) p p' old new ∧
        vfsWriteFile { s.vfs with blocks := after } path (.block p') file.size = .ok (0, vfs) ∧
        s' = { setDescriptor s fd (advanced file count) with vfs := vfs } := by
  obtain ⟨hvalid, hpath⟩ := h.opened hfd
  obtain ⟨hlow, _, _⟩ := validFd_iff.mp hvalid
  rcases sysWrite_cases hcall with ⟨_, hr⟩ |
    ⟨bytes, middle, file, after, r', vfs, _, hbuf, hgrow, hcount, hcopy, hwrite, hr, rfl⟩
  · omega
  obtain rfl := Option.some.inj hbuf
  have hr' : r' = 0 := by
    by_contra hne
    rw [if_neg hne] at hr
    omega
  subst hr'
  have hlen : (buf.take count).length = count := by
    rw [List.length_take]
    omega
  rw [← hlen] at hgrow
  rcases h.member hfd with ⟨hdata, hsize⟩ | ⟨q, hdata, _, hdead⟩
  · obtain ⟨p', old, new, R⟩ := rewritten_of_ok hdata hgrow hcopy
    rw [R.path, hpath, Option.getD_some, R.data] at hwrite
    exact ⟨hlen, hsize, file, after, vfs, p', old, new, R, hwrite, rfl⟩
  · obtain ⟨_, _, _, R⟩ := rewritten_of_ok hdata hgrow hcopy
    cases hdead.symm.trans R.was

theorem Intact.opened_step (h : Intact path F s log p size) (hfd : F fd)
    (R : Rewritten s.vfs.blocks after (s.fdTable fd) file bytes p p' old new) {fd' : Nat}
    (hfd' : F fd') :
    validFd (setDescriptor s fd (advanced file count)) fd' = true ∧
      ((setDescriptor s fd (advanced file count)).fdTable fd').path = some path := by
  obtain ⟨hvalid, hpath⟩ := h.opened hfd'
  obtain ⟨hlow, hhigh, huse⟩ := validFd_iff.mp hvalid
  rcases Decidable.em (fd' = fd) with rfl | hne
  · refine ⟨validFd_iff.mpr ⟨hlow, hhigh, ?_⟩, ?_⟩
    · rw [setDescriptor_self, advanced, R.inUse, huse]
    · rw [setDescriptor_self, advanced, R.path, hpath]
  · refine ⟨validFd_iff.mpr ⟨hlow, hhigh, ?_⟩, ?_⟩
    · rwa [setDescriptor_of_ne s hne]
    · rwa [setDescriptor_of_ne s hne]

theorem Intact.member_step (h : Intact path F s log p size) (hsize : (s.fdTable fd).size = size)
    (R : Rewritten s.vfs.blocks after (s.fdTable fd) file bytes p p' old new)
    (hdead : ∀ k, k < after.size → after.get k = none → vfs.blocks.get k = none)
    (hgrown : after.size ≤ vfs.blocks.size) {fd' : Nat} (hfd' : F fd') :
    (((setDescriptor s fd (advanced file count)).fdTable fd').data = some p' ∧
        ((setDescriptor s fd (advanced file count)).fdTable fd').size = file.size) ∨
      ∃ q, ((setDescriptor s fd (advanced file count)).fdTable fd').data = some q ∧
        q < vfs.blocks.size ∧ vfs.blocks.get q = none := by
  rcases Decidable.em (fd' = fd) with rfl | hne
  · rw [setDescriptor_self]
    exact .inl ⟨R.data, rfl⟩
  rw [setDescriptor_of_ne s hne]
  rcases h.member hfd' with ⟨hdata, hsize'⟩ | ⟨k, hdata, hk, hkdead⟩
  · rcases Decidable.em (p' = p) with hsame | hmoved
    · exact .inl ⟨hsame ▸ hdata, by rw [hsize', R.same hsame, hsize]⟩
    · have hafter := Nat.lt_of_lt_of_le (Heap.lt_size_of_get R.was) R.size
      exact .inr ⟨p, hdata, Nat.lt_of_lt_of_le hafter hgrown, hdead p hafter (R.freed hmoved)⟩
  · have hafter := Nat.lt_of_lt_of_le hk R.size
    exact .inr ⟨k, hdata, Nat.lt_of_lt_of_le hafter hgrown, hdead k hafter (R.dead hk hkdead)⟩

theorem Intact.within_step (h : Intact path F s log p size) (hsize : (s.fdTable fd).size = size)
    (R : Rewritten s.vfs.blocks after (s.fdTable fd) file bytes p p' old new) {w : Write}
    (hw : w ∈ log ++ [⟨fd, (s.fdTable fd).position, bytes⟩]) :
    w.offset + w.bytes.length ≤ file.size ∧ w.offset + w.bytes.length ≤
      ((setDescriptor s fd (advanced file bytes.length)).fdTable w.fd).position := by
  have hmore := R.grows
  rcases List.mem_append.mp hw with hw | hw
  · obtain ⟨hin, hpos⟩ := h.within hw
    refine ⟨by omega, ?_⟩
    rcases Decidable.em (w.fd = fd) with hwfd | hwfd
    · rw [hwfd] at hpos ⊢
      rw [setDescriptor_self, position_advanced, R.position]
      omega
    · rwa [setDescriptor_of_ne s hwfd]
  · obtain rfl := List.mem_singleton.mp hw
    rw [setDescriptor_self, position_advanced, R.position]
    exact ⟨R.fits, Nat.le_refl _⟩

theorem Intact.holds_step (h : Intact path F s log p size)
    (R : Rewritten s.vfs.blocks after (s.fdTable fd) file bytes p p' old new) {w : Write}
    (hw : w ∈ log ++ [⟨fd, (s.fdTable fd).position, bytes⟩])
    (hin : w.offset + w.bytes.length ≤ file.size) {i : Nat} {x : UInt8}
    (hx : w.bytes[i]? = some x)
    (hother : ∀ w' ∈ log ++ [⟨fd, (s.fdTable fd).position, bytes⟩], w'.fd ≠ w.fd →
      ¬ w'.Covers (w.offset + i)) : new[w.offset + i]? = some x := by
  obtain ⟨hlt, _⟩ := List.getElem?_eq_some_iff.mp hx
  rcases List.mem_append.mp hw with hw' | hw'
  · have hkept : old[w.offset + i]? = some x := h.holds R.was w hw' i x hx fun w' hw'' =>
      hother w' (List.mem_append_left _ hw'')
    refine R.keeps (by omega) ?_ hkept
    rcases Decidable.em (w.fd = fd) with hwfd | hwfd
    · have hbefore := (h.within hw').2
      rw [hwfd] at hbefore
      omega
    · have hnot := hother ⟨fd, (s.fdTable fd).position, bytes⟩
        (List.mem_append_right _ List.mem_cons_self) (Ne.symm hwfd)
      simp only [Write.Covers] at hnot
      omega
  · obtain rfl := List.mem_singleton.mp hw'
    exact R.puts hx

theorem Intact.step (h : Intact path F s log p size) (hfd : F fd)
    (hcall : sysWrite s fd (some buf) count = .ok (count, s')) :
    ∃ p' size', Intact path F s' (log ++ [⟨fd, (s.fdTable fd).position, buf.take count⟩]) p' size' := by
  obtain ⟨hlen, hsize, file, after, vfs, p', old, new, R, hwrite, rfl⟩ := h.written hfd hcall
  obtain ⟨hstored, hdead, hgrown⟩ := vfsWriteFile_block R.block hwrite
  have hwithin : ∀ {w}, w ∈ log ++ [⟨fd, (s.fdTable fd).position, buf.take count⟩] →
      w.offset + w.bytes.length ≤ file.size ∧ w.offset + w.bytes.length ≤
        ((setDescriptor s fd (advanced file count)).fdTable w.fd).position := by
    intro w hw
    have hboth := h.within_step hsize R hw
    rwa [hlen] at hboth
  have hkept : (∃ w ∈ log ++ [⟨fd, (s.fdTable fd).position, buf.take count⟩], w.bytes ≠ []) →
      vfs.blocks.get p' = some new ∧
        (mayRead vfs path = true → readBytes vfs path = some (new.take file.size)) := by
    rintro ⟨w, hw, hne⟩
    have hin := (hwithin hw).1
    have hlt := List.length_pos_iff.mpr hne
    exact hstored (by omega)
  refine ⟨p', file.size, h.opened_step hfd R, h.member_step hsize R hdead hgrown, hwithin, ?_, ?_, ?_⟩
  · intro hgone w hw
    by_contra hne
    cases hgone.symm.trans (hkept ⟨w, hw, hne⟩).1
  · intro buf' hbuf' w hw i x hx hother
    obtain ⟨hlt, _⟩ := List.getElem?_eq_some_iff.mp hx
    have hne : w.bytes ≠ [] := List.length_pos_iff.mp (by omega)
    obtain rfl := Option.some.inj ((hkept ⟨w, hw, hne⟩).1.symm.trans hbuf')
    exact h.holds_step R hw (hwithin hw).1 hx hother
  · intro buf' hbuf' hsome hmay
    obtain ⟨hlive, hread⟩ := hkept hsome
    obtain rfl := Option.some.inj (hlive.symm.trans hbuf')
    exact hread hmay

end Steps

theorem fullWrite_cases {d e : Nat} {c : Syscall} (h : fullWrite d e s c = true) :
    ∃ fd buf count s', (fd = d ∨ fd = e) ∧ c = .sysWrite fd (some buf) count ∧
      sysWrite s fd (some buf) count = .ok (count, s') := by
  unfold fullWrite at h
  split at h
  · next fd buf count =>
    obtain ⟨hfd, hcall⟩ := Bool.and_eq_true_iff.mp h
    split at hcall
    · next r s' hok =>
      obtain rfl : r = count := by simpa using hcall
      exact ⟨fd, buf, count, s', by simpa using hfd, rfl, hok⟩
    · cases hcall
  · cases h

theorem intact_run {d e : Nat} {s₀ : SyscallState} {calls : List Syscall}
    (hstart : Intact path F s₀ [] p size)
    (hrun : Run loggedStep (fun t c => fullWrite d e t.1 c = true ∧
      ∃ fd, F fd ∧ writesThrough fd c = true) (s₀, []) calls (s, log)) :
    NoneLost s path log := by
  have hall : ∃ p size, Intact path F s log p size := by
    refine hrun.invariant (P := fun t => ∃ p size, Intact path F t.1 t.2 p size) ⟨p, size, hstart⟩ ?_
    rintro ⟨t, log⟩ c ⟨t', log'⟩ ⟨p, size, ht⟩ ⟨hfull, fd, hfd, hthrough⟩ hstep
    obtain ⟨fd', buf, count, u, _, rfl, hcall⟩ := fullWrite_cases hfull
    obtain rfl : fd' = fd := by simpa [writesThrough] using hthrough
    have hnext : syscallStep t (.sysWrite fd' (some buf) count) = some u := by
      simp [syscallStep, syscall, hcall]
    simp only [loggedStep, hnext, Option.map_some, Option.some.injEq, Prod.mk.injEq] at hstep
    obtain ⟨rfl, rfl⟩ := hstep
    exact ht.step hfd hcall
  obtain ⟨p, size, h⟩ := hall
  exact h.noneLost

end Runs

section Law

variable {s₀ : SyscallState} {d e : Nat} {calls : List Syscall} {log : List Write}

theorem openOn_iff : openOn s path fd = true ↔
    (s.fdTable fd).inUse = true ∧ (s.fdTable fd).path = some path := by simp [openOn]

theorem noneLost_alone (hreach : SyscallReachable s₀) (hd : openOn s₀ path d = true)
    (hrun : Run loggedStep (fun t c => fullWrite d e t.1 c = true ∧
      ∃ fd, fd = d ∧ writesThrough fd c = true) (s₀, []) calls (s, log)) :
    NoneLost s path log := by
  obtain ⟨huse, hpath⟩ := openOn_iff.mp hd
  obtain ⟨hvalid, p, hdata⟩ := hreach.opened d huse
  have hstart : Intact path (fun fd => fd = d) s₀ [] p (s₀.fdTable d).size := by
    apply Intact.start
    · rintro fd rfl
      exact ⟨hvalid, hpath⟩
    · rintro fd rfl
      exact ⟨hdata, rfl⟩
  exact intact_run hstart hrun

theorem noneLost_shared (hreach : SyscallReachable s₀) (hd : openOn s₀ path d = true)
    (he : openOn s₀ path e = true) (hsame : sameBuffer s₀ d e = true)
    (hrun : Run loggedStep (fun t c => fullWrite d e t.1 c = true) (s₀, []) calls (s, log)) :
    NoneLost s path log := by
  obtain ⟨hused, hpathd⟩ := openOn_iff.mp hd
  obtain ⟨husee, hpathe⟩ := openOn_iff.mp he
  obtain ⟨hvalidd, p, hdata⟩ := hreach.opened d hused
  obtain ⟨hvalide, _⟩ := hreach.opened e husee
  obtain ⟨hsamedata, hsamesize⟩ : (s₀.fdTable d).data = (s₀.fdTable e).data ∧
      (s₀.fdTable d).size = (s₀.fdTable e).size := by simpa [sameBuffer] using hsame
  have hstart : Intact path (fun fd => fd = d ∨ fd = e) s₀ [] p (s₀.fdTable d).size := by
    apply Intact.start
    · rintro fd (rfl | rfl)
      · exact ⟨hvalidd, hpathd⟩
      · exact ⟨hvalide, hpathe⟩
    · rintro fd (rfl | rfl)
      · exact ⟨hdata, rfl⟩
      · exact ⟨hsamedata ▸ hdata, hsamesize.symm⟩
  have hthrough : Run loggedStep (fun t c => fullWrite d e t.1 c = true ∧
      ∃ fd, (fd = d ∨ fd = e) ∧ writesThrough fd c = true) (s₀, []) calls (s, log) := by
    refine hrun.mono fun t c hfull => ⟨hfull, ?_⟩
    obtain ⟨fd, buf, count, _, hfd, rfl, _⟩ := fullWrite_cases hfull
    exact ⟨fd, hfd, by simp [writesThrough]⟩
  exact intact_run hstart hthrough

end Law

theorem no_update_lost {s₀ : SyscallState} {d e : Nat} {calls : List Syscall} {log : List Write}
    (hreach : SyscallReachable s₀) (hd : openOn s₀ path d = true) (he : openOn s₀ path e = true)
    (hcalls : sameBuffer s₀ d e = true ∨ (∀ c ∈ calls, writesThrough d c = true) ∨
      ∀ c ∈ calls, writesThrough e c = true)
    (hrun : Run loggedStep (fun t c => fullWrite d e t.1 c = true) (s₀, []) calls (s, log)) :
    NoneLost s path log := by
  rcases hcalls with hsame | hone | hone
  · exact noneLost_shared hreach hd he hsame hrun
  · refine noneLost_alone (e := e) hreach hd ((hrun.restrict hone).mono ?_)
    exact fun _ _ hok => ⟨hok.1, d, rfl, hok.2⟩
  · refine noneLost_alone (e := d) hreach he ((hrun.restrict hone).mono ?_)
    intro t c hok
    refine ⟨?_, e, rfl, hok.2⟩
    obtain ⟨fd, buf, count, t', _, rfl, hcall⟩ := fullWrite_cases hok.1
    obtain rfl : fd = e := by simpa [writesThrough] using hok.2
    simp [fullWrite, hcall]

def nothingOpen : SyscallState := syscallInit (Vfs.booted (openHost []))

def called (calls : List Syscall) : SyscallState :=
  (exec (guarded syscallStep fun _ _ => true) nothingOpen calls).getD nothingOpen

theorem syscallReachable_called {calls : List Syscall}
    (hrun : (exec (guarded syscallStep fun _ _ => true) nothingOpen calls).isSome = true) :
    SyscallReachable (called calls) := by
  have hboot := reachableBy_ran (fun _ _ => true) (openHost []) [] (by decide +kernel) rfl
  refine ⟨Vfs.booted (openHost []), calls, ⟨[], hboot.mono fun _ _ _ => trivial⟩, ?_⟩
  exact (Run.of_exec_isSome hrun).mono fun _ _ _ => trivial

def writtenBy (d e : Nat) (s₀ : SyscallState) (calls : List Syscall) : SyscallState × List Write :=
  (exec (guarded loggedStep fun t c => fullWrite d e t.1 c) (s₀, []) calls).getD (s₀, [])

def twoOpened : List Syscall :=
  [.vfs (.createFile (str "/f")), .vfs (.writeFile (str "/f") (str "aaaa")),
    .sysOpen (some (str "/f")) 2, .sysOpen (some (str "/f")) 2, .vfs (.createFile (str "/f"))]

def interleaved : List Syscall :=
  [.sysWrite 3 (some (str "XY")) 2, .sysWrite 4 (some (str "Z")) 1, .sysWrite 3 (some (str "long")) 4]

theorem no_update_lost_interleaved :
    NoneLost (writtenBy 3 4 (called twoOpened) interleaved).1 (str "/f")
      (writtenBy 3 4 (called twoOpened) interleaved).2 := by
  have hrun : Run loggedStep (fun t c => fullWrite 3 4 t.1 c = true) (called twoOpened, [])
      interleaved (writtenBy 3 4 (called twoOpened) interleaved) :=
    Run.of_exec_isSome (by decide +kernel)
  exact no_update_lost (syscallReachable_called (by decide +kernel)) (by decide +kernel)
    (by decide +kernel) (.inl (by decide +kernel)) hrun

def openedApart : List Syscall :=
  [.vfs (.createFile (str "/f")), .vfs (.writeFile (str "/f") (str "aaaa")),
    .sysOpen (some (str "/f")) 2, .vfs (.createFile (str "/f")),
    .vfs (.writeFile (str "/f") (str "bbbb")), .sysOpen (some (str "/f")) 2,
    .vfs (.createFile (str "/f"))]

def oneAfterAnother : List Syscall :=
  [.sysWrite 3 (some (str "XY")) 2, .sysWrite 4 (some (str "Z")) 1]

theorem second_write_drops_first :
    ¬ ∀ (s₀ s : SyscallState) (d e : Nat) (path : Bytes) (calls : List Syscall) (log : List Write),
      SyscallReachable s₀ → openOn s₀ path d = true → openOn s₀ path e = true →
      Run loggedStep (fun t c => fullWrite d e t.1 c = true) (s₀, []) calls (s, log) →
      NoneLost s path log := by
  intro hall
  have hrun : Run loggedStep (fun t c => fullWrite 3 4 t.1 c = true) (called openedApart, [])
      oneAfterAnother (writtenBy 3 4 (called openedApart) oneAfterAnother) :=
    Run.of_exec_isSome (by decide +kernel)
  have hkept := hall (called openedApart) (writtenBy 3 4 (called openedApart) oneAfterAnother).1 3 4
    (str "/f") oneAfterAnother (writtenBy 3 4 (called openedApart) oneAfterAnother).2
    (syscallReachable_called (by decide +kernel)) (by decide +kernel) (by decide +kernel) hrun
  have hlog : (writtenBy 3 4 (called openedApart) oneAfterAnother).2 =
      [⟨3, 0, str "XY"⟩, ⟨4, 0, str "Z"⟩] := by decide +kernel
  rw [hlog] at hkept
  obtain ⟨content, hread, hbyte⟩ := hkept ⟨3, 0, str "XY"⟩ (by simp) 1 89 (by decide +kernel)
    (by simp [Write.Covers]; decide) (by decide +kernel)
  have hfinal : readBytes (writtenBy 3 4 (called openedApart) oneAfterAnother).1.vfs (str "/f") =
      some (str "Zbbb") := by decide +kernel
  obtain rfl := Option.some.inj (hfinal.symm.trans hread)
  exact absurd hbyte (by decide +kernel)

end ZoraVM.Kernel
