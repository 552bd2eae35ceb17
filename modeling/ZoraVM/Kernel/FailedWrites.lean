import ZoraVM.Kernel.OpenCreate
import ZoraVM.Vfs.Sync

namespace ZoraVM.Kernel

open Foundation Vfs

-- What realloc may do; `sysWrite` takes it to move the block.
inductive Realloc where
  | fails
  | moves
  | grows
  deriving DecidableEq, Repr

def reallocateWith (realloc : Realloc) (blocks : Heap Bytes) (data : Option Nat) (size : Nat) :
    Outcome (Option (Heap Bytes × Nat)) :=
  match realloc, data with
  | .fails, none => .ok none
  | .fails, some p => if blocks.live p then .ok none else .error .freedBlock
  | .grows, some p =>
    match blocks.get p with
    | none => .error .freedBlock
    | some b => .ok (some (blocks.put p (resize 0 size b), p))
  | _, _ => some <$> reallocate blocks data size

def growBufferWith (realloc : Realloc) (blocks : Heap Bytes) (file : FileDescriptor)
    (newPos : Nat) : Outcome (Option (Heap Bytes × FileDescriptor)) :=
  if file.size < newPos then do
    match ← reallocateWith realloc blocks file.data newPos with
    | none => .ok none
    | some (blocks, p) => .ok (some (blocks, { file with data := some p, size := newPos }))
  else .ok (some (blocks, file))

-- vfs_write_file; the old data is freed before malloc is asked for the new.
def vfsWriteFileWith (malloc : Bool) (s : VfsState) (path : Bytes) (data : Buffer) (size : Nat) :
    Outcome (Int × VfsState) := do
  match ← vfsFindNode s path with
  | none => .ok (-1, s)
  | some n =>
    let a ← nodeAt s n
    if a.isDirectory then .ok (-1, s)
    else if !(← vfsCheckPermission s path s.identity.vfsCurrentUser (permWrite >>> 6)) then
      .ok (-1, s)
    else
      let blocks ← freeData s.blocks a.data
      if !malloc && decide (0 < size ∧ data ≠ .null) then
        .ok (-1, { updateNode s n withoutData with blocks := blocks })
      else
        let content ← copyData blocks size data
        let s' := updateNode (storeData s n blocks content) n (touched s.clock)
        .ok (0, if s.hostRootDirectory = [] then s' else (vfsSyncToHost s' n).2)

def sysWriteWith (realloc : Realloc) (malloc : Bool) (s : SyscallState) (fd : Nat)
    (buf : Option Bytes) (count : Nat) : Outcome (Int × SyscallState) := do
  match buf with
  | none => .ok (-1, s)
  | some buf =>
    if fd = 1 ∨ fd = 2 then do
      let _ ← readBuffer s.vfs.blocks count (.bytes buf)
      .ok (returned count, s)
    else if !validFd s fd then .ok (-1, s)
    else
      let file := s.fdTable fd
      if file.flags &&& 3 = 0 then .ok (-1, s)
      else
        match ← growBufferWith realloc s.vfs.blocks file (file.position + count) with
        | none => .ok (-1, s)
        | some (blocks, file) =>
          let bytes ← readBuffer blocks count (.bytes buf)
          let blocks ← copyInto blocks file.data file.position bytes
          let s := setDescriptor s fd (advanced file count)
          let (r, vfs) ← vfsWriteFileWith malloc { s.vfs with blocks := blocks } (file.path.getD [])
            (pointer file.data) file.size
          .ok (if r = 0 then returned count else -1, { s with vfs := vfs })

section Agreement

theorem reallocateWith_moves (blocks : Heap Bytes) (data : Option Nat) (size : Nat) :
    reallocateWith .moves blocks data size = some <$> reallocate blocks data size := by
  cases data <;> rfl

theorem growBufferWith_moves (blocks : Heap Bytes) (file : FileDescriptor) (newPos : Nat) :
    growBufferWith .moves blocks file newPos = some <$> growBuffer blocks file newPos := by
  unfold growBufferWith growBuffer
  split
  · rw [reallocateWith_moves]
    cases reallocate blocks file.data newPos with
    | error e => rfl
    | ok moved => rfl
  · rfl

theorem vfsWriteFileWith_true (s : VfsState) (path : Bytes) (data : Buffer) (size : Nat) :
    vfsWriteFileWith true s path data size = vfsWriteFile s path data size := by
  simp only [vfsWriteFileWith, Bool.not_true, Bool.false_and, Bool.false_eq_true, if_false]
  rfl

theorem sysWriteWith_moves_true (s : SyscallState) (fd : Nat) (buf : Option Bytes) (count : Nat) :
    sysWriteWith .moves true s fd buf count = sysWrite s fd buf count := by
  unfold sysWriteWith sysWrite
  simp only [growBufferWith_moves, vfsWriteFileWith_true]
  cases buf with
  | none => rfl
  | some buf =>
    dsimp only
    split
    · rfl
    split
    · rfl
    split
    · rfl
    cases growBuffer s.vfs.blocks (s.fdTable fd) ((s.fdTable fd).position + count) with
    | error e => rfl
    | ok grown => rfl

end Agreement

section Specification

variable (s s' : SyscallState) (fd : Nat)

def filePath : Bytes := (s.fdTable fd).path.getD []

structure Unchanged : Prop where
  position : (s'.fdTable fd).position = (s.fdTable fd).position
  size : (s'.fdTable fd).size = (s.fdTable fd).size
  data : (s'.fdTable fd).data = (s.fdTable fd).data
  bytes : ∀ p, (s.fdTable fd).data = some p → s'.vfs.blocks.get p = s.vfs.blocks.get p
  file : ∀ n a, vfsFindNode s.vfs (filePath s fd) = .ok (some n) →
    Forest.valAt s.vfs.nodes n = some a → ∃ a', Forest.valAt s'.vfs.nodes n = some a' ∧
      a'.size = a.size ∧ nodeContent s'.vfs a' = nodeContent s.vfs a

def RefusedEarly (realloc : Realloc) (buf : Option Bytes) (count : Nat) : Prop :=
  buf = none ∨ fd = 1 ∨ fd = 2 ∨ validFd s fd = false ∨ (s.fdTable fd).flags &&& 3 = 0 ∨
    (realloc = .fails ∧ (s.fdTable fd).size < (s.fdTable fd).position + count)

def NothingHeld : Prop :=
  ∀ n a, vfsFindNode s.vfs (filePath s fd) = .ok (some n) → Forest.valAt s.vfs.nodes n = some a →
    a.isDirectory = false →
    permits s.vfs.identity a s.vfs.identity.vfsCurrentUser (permWrite >>> 6) = true →
    a.data = none ∨ (nodeContent s.vfs a = [] ∧ a.data ≠ (s.fdTable fd).data)

def WritesNothing (count : Nat) : Prop :=
  count = 0 ∧ (s.fdTable fd).position ≤ (s.fdTable fd).size ∧ NothingHeld s fd

end Specification

variable {s s' : SyscallState} {fd count : Nat} {buf : Option Bytes} {realloc : Realloc}
  {malloc : Bool} {r : Int}

section Cases

theorem growBufferWith_none {blocks : Heap Bytes} {file : FileDescriptor} {newPos : Nat}
    (h : growBufferWith realloc blocks file newPos = .ok none) :
    realloc = .fails ∧ file.size < newPos := by
  unfold growBufferWith at h
  split at h
  · next hlt =>
    refine ⟨?_, hlt⟩
    obtain ⟨moved, hmoved, h⟩ := Outcome.bind_eq_ok.mp h
    cases moved with
    | some moved => cases Except.ok.inj h
    | none =>
      cases realloc with
      | fails => rfl
      | moves =>
        rw [reallocateWith_moves] at hmoved
        cases hrealloc : reallocate blocks file.data newPos <;> simp [hrealloc] at hmoved
      | grows =>
        cases hdata : file.data with
        | none =>
          rw [hdata] at hmoved
          cases hmoved
        | some p =>
          simp only [hdata, reallocateWith] at hmoved
          split at hmoved <;> cases hmoved
  · cases Except.ok.inj h

theorem growBufferWith_some {blocks blocks' : Heap Bytes} {file file' : FileDescriptor}
    {newPos : Nat} (h : growBufferWith realloc blocks file newPos = .ok (some (blocks', file'))) :
    file'.position = file.position ∧ file'.path = file.path ∧
      ((file.size < newPos ∧ file'.size = newPos) ∨
        (newPos ≤ file.size ∧ blocks' = blocks ∧ file' = file)) := by
  unfold growBufferWith at h
  split at h
  · next hlt =>
    obtain ⟨moved, _, h⟩ := Outcome.bind_eq_ok.mp h
    cases moved with
    | none => cases Except.ok.inj h
    | some moved =>
      obtain ⟨_, rfl⟩ := Prod.mk.inj (Option.some.inj (Except.ok.inj h))
      exact ⟨rfl, rfl, .inl ⟨hlt, rfl⟩⟩
  · next hfit =>
    obtain ⟨rfl, rfl⟩ := Prod.mk.inj (Option.some.inj (Except.ok.inj h))
    exact ⟨rfl, rfl, .inr ⟨Nat.le_of_not_lt hfit, rfl, rfl⟩⟩

theorem growBufferWith_fails {blocks : Heap Bytes} {file : FileDescriptor} {newPos : Nat}
    {grown : Heap Bytes × FileDescriptor} (hlt : file.size < newPos) :
    growBufferWith .fails blocks file newPos ≠ .ok (some grown) := by
  intro h
  rw [growBufferWith, if_pos hlt] at h
  obtain ⟨moved, hmoved, h⟩ := Outcome.bind_eq_ok.mp h
  cases moved with
  | none => cases Except.ok.inj h
  | some moved =>
    cases hdata : file.data with
    | none =>
      rw [hdata] at hmoved
      cases hmoved
    | some p =>
      simp only [hdata, reallocateWith] at hmoved
      split at hmoved <;> cases hmoved

theorem copyInto_nothing {blocks blocks' : Heap Bytes} {data : Option Nat} {offset : Nat}
    (h : copyInto blocks data offset [] = .ok blocks') : blocks' = blocks := by
  cases data with
  | none => exact (Except.ok.inj h).symm
  | some q =>
    obtain ⟨b, hb, _, rfl⟩ := copyInto_some h
    have hsame : splice b offset [] = b := by simp [splice]
    rw [hsame, Heap.put_of_get hb]

theorem vfsWriteFileWith_cases {t t' : VfsState} {path : Bytes} {data : Buffer} {size : Nat}
    (h : vfsWriteFileWith malloc t path data size = .ok (r, t')) :
    (r = 0) ∨
    (r = -1 ∧ t' = t ∧ ∀ n a, vfsFindNode t path = .ok (some n) → Forest.valAt t.nodes n = some a →
      a.isDirectory = false →
      permits t.identity a t.identity.vfsCurrentUser (permWrite >>> 6) = false) ∨
    ∃ n a blocks, vfsFindNode t path = .ok (some n) ∧ Forest.valAt t.nodes n = some a ∧
      a.isDirectory = false ∧
      permits t.identity a t.identity.vfsCurrentUser (permWrite >>> 6) = true ∧
      freeData t.blocks a.data = .ok blocks ∧ r = -1 ∧
      t' = { updateNode t n withoutData with blocks := blocks } := by
  obtain ⟨found, hfind, hrest⟩ := Outcome.bind_eq_ok.mp h
  cases found with
  | none =>
    obtain ⟨rfl, rfl⟩ := Prod.mk.inj (Except.ok.inj hrest)
    refine .inr (.inl ⟨rfl, rfl, fun n a hn => ?_⟩)
    cases hfind.symm.trans hn
  | some n =>
    obtain ⟨a, ha, hrest⟩ := Outcome.bind_eq_ok.mp hrest
    replace ha := nodeAt_ok ha
    have hsame : ∀ n' a', vfsFindNode t path = .ok (some n') → Forest.valAt t.nodes n' = some a' →
        a' = a := by
      intro n' a' hn' ha'
      obtain rfl := Option.some.inj (Except.ok.inj (hfind.symm.trans hn'))
      exact Option.some.inj (ha'.symm.trans ha)
    split at hrest
    · next hdir =>
      obtain ⟨rfl, rfl⟩ := Prod.mk.inj (Except.ok.inj hrest)
      refine .inr (.inl ⟨rfl, rfl, fun n' a' hn' ha' hfile => ?_⟩)
      obtain rfl := hsame n' a' hn' ha'
      cases hfile.symm.trans hdir
    · next hfile =>
      obtain ⟨allowed, hallowed, hrest⟩ := Outcome.bind_eq_ok.mp hrest
      have hperm := vfsCheckPermission_ok (vfsFindNode_ok hfind).2 ha hallowed
      split at hrest
      · next hno =>
        obtain ⟨rfl, rfl⟩ := Prod.mk.inj (Except.ok.inj hrest)
        refine .inr (.inl ⟨rfl, rfl, fun n' a' hn' ha' _ => ?_⟩)
        obtain rfl := hsame n' a' hn' ha'
        rw [← hperm]
        simpa using hno
      · next hyes =>
        obtain ⟨blocks, hblocks, hrest⟩ := Outcome.bind_eq_ok.mp hrest
        split at hrest
        · obtain ⟨rfl, rfl⟩ := Prod.mk.inj (Except.ok.inj hrest)
          refine .inr (.inr ⟨n, a, blocks, hfind, ha, by simpa using hfile, ?_, hblocks, rfl, rfl⟩)
          rw [← hperm]
          simpa using hyes
        · obtain ⟨content, _, hrest⟩ := Outcome.bind_eq_ok.mp hrest
          exact .inl (Prod.mk.inj (Except.ok.inj hrest)).1.symm

theorem sysWriteWith_cases (h : sysWriteWith realloc malloc s fd buf count = .ok (r, s')) :
    (RefusedEarly s fd realloc buf count ∧ s' = s) ∨
    ∃ (bytes : Bytes) (blocks : Heap Bytes) (file : FileDescriptor) (blocks' : Heap Bytes) (r' : Int)
      (vfs : VfsState), ¬ RefusedEarly s fd realloc buf count ∧
      growBufferWith realloc s.vfs.blocks (s.fdTable fd) ((s.fdTable fd).position + count) =
        .ok (some (blocks, file)) ∧
      copyInto blocks file.data file.position (bytes.take count) = .ok blocks' ∧
      vfsWriteFileWith malloc { s.vfs with blocks := blocks' } (file.path.getD [])
        (pointer file.data) file.size = .ok (r', vfs) ∧
      r = (if r' = 0 then returned count else -1) ∧
      s' = { setDescriptor s fd (advanced file count) with vfs := vfs } := by
  cases buf with
  | none =>
    obtain ⟨rfl, rfl⟩ := Prod.mk.inj (Except.ok.inj h)
    exact .inl ⟨.inl rfl, rfl⟩
  | some buf =>
    dsimp only [sysWriteWith] at h
    split at h
    · next hstd =>
      obtain ⟨_, _, h⟩ := Outcome.bind_eq_ok.mp h
      obtain ⟨_, rfl⟩ := Prod.mk.inj (Except.ok.inj h)
      rcases hstd with hout | herr
      · exact .inl ⟨.inr (.inl hout), rfl⟩
      · exact .inl ⟨.inr (.inr (.inl herr)), rfl⟩
    next hstd =>
    split at h
    · next hinvalid =>
      obtain ⟨rfl, rfl⟩ := Prod.mk.inj (Except.ok.inj h)
      exact .inl ⟨.inr (.inr (.inr (.inl (by simpa using hinvalid)))), rfl⟩
    next hvalid =>
    split at h
    · next hreadonly =>
      obtain ⟨rfl, rfl⟩ := Prod.mk.inj (Except.ok.inj h)
      exact .inl ⟨.inr (.inr (.inr (.inr (.inl hreadonly)))), rfl⟩
    next hwritable =>
    obtain ⟨grown, hgrow, h⟩ := Outcome.bind_eq_ok.mp h
    cases grown with
    | none =>
      obtain ⟨rfl, rfl⟩ := Prod.mk.inj (Except.ok.inj h)
      exact .inl ⟨.inr (.inr (.inr (.inr (.inr (growBufferWith_none hgrow))))), rfl⟩
    | some grown =>
      obtain ⟨blocks, file⟩ := grown
      obtain ⟨bytes, hbytes, h⟩ := Outcome.bind_eq_ok.mp h
      obtain ⟨blocks', hcopy, h⟩ := Outcome.bind_eq_ok.mp h
      obtain ⟨⟨r', vfs⟩, hwrite, h⟩ := Outcome.bind_eq_ok.mp h
      obtain ⟨rfl, rfl⟩ := Prod.mk.inj (Except.ok.inj h)
      simp only [readBuffer] at hbytes
      split at hbytes
      · obtain rfl := Except.ok.inj hbytes
        refine .inr ⟨buf, blocks, file, blocks', r', vfs, ?_, hgrow, hcopy, hwrite, rfl, rfl⟩
        rintro (hnone | hout | herr | hinvalid | hreadonly | ⟨rfl, hlt⟩)
        · cases hnone
        · exact hstd (.inl hout)
        · exact hstd (.inr herr)
        · exact hvalid (by simpa using hinvalid)
        · exact hwritable hreadonly
        · exact growBufferWith_fails hlt hgrow
      · cases hbytes

end Cases

section Results

theorem Unchanged.refl (s : SyscallState) (fd : Nat) : Unchanged s s fd :=
  ⟨rfl, rfl, rfl, fun _ _ => rfl, fun _ a _ ha => ⟨a, ha, rfl, rfl⟩⟩

theorem nodeContent_withoutData (t : VfsState) (a : Attr) : nodeContent t (withoutData a) = [] := rfl

theorem unchanged_released_iff {n : Nat} {a : Attr} {blocks : Heap Bytes}
    (hfind : vfsFindNode s.vfs (filePath s fd) = .ok (some n))
    (ha : Forest.valAt s.vfs.nodes n = some a) (hfile : a.isDirectory = false)
    (hperm : permits s.vfs.identity a s.vfs.identity.vfsCurrentUser (permWrite >>> 6) = true)
    (hfree : freeData s.vfs.blocks a.data = .ok blocks) :
    Unchanged s { s with vfs := { updateNode s.vfs n withoutData with blocks := blocks } } fd ↔
      NothingHeld s fd := by
  have hval : Forest.valAt (updateNode s.vfs n withoutData).nodes n = some (withoutData a) := by
    rw [updateNode, Forest.valAt_update_self, ha]
    rfl
  constructor
  · rintro hsame n' b hn' hb _ _
    obtain rfl := Option.some.inj (Except.ok.inj (hfind.symm.trans hn'))
    obtain rfl := Option.some.inj (ha.symm.trans hb)
    obtain ⟨a', ha', _, hcontent⟩ := hsame.file n a hfind ha
    obtain rfl := Option.some.inj (hval.symm.trans ha')
    cases hdata : a.data with
    | none => exact .inl rfl
    | some q =>
      refine .inr ⟨hcontent.symm, fun heq => ?_⟩
      rw [hdata] at hfree
      have hgone := hsame.bytes q heq.symm
      rw [freeData_some hfree, Heap.get_free_self] at hgone
      dsimp only [freeData] at hfree
      rw [Heap.live, ← hgone] at hfree
      cases hfree
  · intro hheld
    refine ⟨rfl, rfl, rfl, fun p hp => ?_, fun n' b hn' hb => ?_⟩
    · rcases hheld n a hfind ha hfile hperm with hnone | ⟨_, hne⟩
      · rw [hnone] at hfree
        exact congrArg (fun h => h.get p) (freeData_none hfree)
      · cases hdata : a.data with
        | none =>
          rw [hdata] at hfree
          exact congrArg (fun h => h.get p) (freeData_none hfree)
        | some q =>
          rw [hdata] at hfree
          have hpq : p ≠ q := by
            rintro rfl
            exact hne (hdata.trans hp.symm)
          exact (congrArg (fun h => h.get p) (freeData_some hfree)).trans (Heap.get_free_of_ne hpq)
    · obtain rfl := Option.some.inj (Except.ok.inj (hfind.symm.trans hn'))
      obtain rfl := Option.some.inj (ha.symm.trans hb)
      refine ⟨withoutData a, hval, rfl, ?_⟩
      rw [nodeContent_withoutData]
      rcases hheld n a hfind ha hfile hperm with hnone | ⟨hempty, _⟩
      · rw [nodeContent, hnone]
      · exact hempty.symm

theorem refused_store_iff {data : Buffer} {size : Nat} {vfs : VfsState} (hr : r ≠ 0)
    (hwrite : vfsWriteFileWith malloc s.vfs (filePath s fd) data size = .ok (r, vfs)) :
    Unchanged s { s with vfs := vfs } fd ↔ NothingHeld s fd := by
  rcases vfsWriteFileWith_cases hwrite with rfl | ⟨_, rfl, hrefused⟩ |
    ⟨n, a, blocks, hfind, ha, hfile, hperm, hfree, _, rfl⟩
  · exact absurd rfl hr
  · refine ⟨fun _ n a hfind ha hfile hperm => ?_, fun _ => .refl s fd⟩
    rw [hrefused n a hfind ha hfile] at hperm
    cases hperm
  · exact unchanged_released_iff hfind ha hfile hperm hfree

theorem still_of_unchanged {blocks : Heap Bytes} {file : FileDescriptor} {vfs : VfsState}
    (hgrow : growBufferWith realloc s.vfs.blocks (s.fdTable fd) ((s.fdTable fd).position + count) =
      .ok (some (blocks, file)))
    (hsame : Unchanged s { setDescriptor s fd (advanced file count) with vfs := vfs } fd) :
    count = 0 ∧ (s.fdTable fd).position ≤ (s.fdTable fd).size := by
  obtain ⟨hposition, _, hsize⟩ := growBufferWith_some hgrow
  have hself : ({ setDescriptor s fd (advanced file count) with vfs := vfs } : SyscallState).fdTable fd =
      advanced file count := setDescriptor_self s fd (advanced file count)
  have hmoved := hsame.position
  have hgrown := hsame.size
  rw [hself] at hmoved hgrown
  simp only [advanced] at hmoved hgrown
  omega

theorem failed_write_iff
    (h : sysWriteWith realloc malloc s fd buf count = .ok (-1, s')) :
    Unchanged s s' fd ↔ RefusedEarly s fd realloc buf count ∨ WritesNothing s fd count := by
  rcases sysWriteWith_cases h with
    ⟨hearly, rfl⟩ | ⟨bytes, blocks, file, blocks', r', vfs, hlate, hgrow, hcopy, hwrite, hr, rfl⟩
  · exact ⟨fun _ => .inl hearly, fun _ => .refl s' fd⟩
  rw [or_iff_right hlate]
  have hstore : count = 0 → (s.fdTable fd).position ≤ (s.fdTable fd).size →
      (Unchanged s { setDescriptor s fd (advanced file count) with vfs := vfs } fd ↔
        NothingHeld s fd) := by
    rintro rfl hle
    obtain ⟨_, _, hsize⟩ := growBufferWith_some hgrow
    obtain ⟨_, rfl, rfl⟩ := hsize.resolve_left fun hlt => by omega
    have hnot : r' ≠ 0 := by
      rintro rfl
      cases hr
    rw [copyInto_nothing hcopy] at hwrite
    rw [setDescriptor_still]
    exact refused_store_iff hnot hwrite
  constructor
  · intro hsame
    obtain ⟨hcount, hle⟩ := still_of_unchanged hgrow hsame
    exact ⟨hcount, hle, (hstore hcount hle).mp hsame⟩
  · rintro ⟨hcount, hle, hheld⟩
    exact (hstore hcount hle).mpr hheld

def protectedLater : List Syscall :=
  [.vfs (.createFile (str "/f")), .vfs (.writeFile (str "/f") (str "aaaa")),
    .sysOpen (some (str "/f")) 2, .vfs (.chmod (str "/f") 0o444)]

theorem failed_write_iff_no_room : ∃ s',
    sysWriteWith .fails true (called protectedLater) 3 (some (str "bbbbb")) 5 = .ok (-1, s') ∧
      Unchanged (called protectedLater) s' 3 := by
  have hcall : (sysWriteWith .fails true (called protectedLater) 3 (some (str "bbbbb")) 5).toOption.map
      Prod.fst = some (-1) := by decide +kernel
  cases hwrite : sysWriteWith .fails true (called protectedLater) 3 (some (str "bbbbb")) 5 with
  | error f =>
    rw [hwrite] at hcall
    cases hcall
  | ok p =>
    obtain ⟨r, s'⟩ := p
    rw [hwrite] at hcall
    obtain rfl : r = -1 := Option.some.inj hcall
    have hsize : ((called protectedLater).fdTable 3).size <
        ((called protectedLater).fdTable 3).position + 5 := by decide +kernel
    refine ⟨s', rfl, (failed_write_iff hwrite).mpr (.inl ?_)⟩
    exact .inr (.inr (.inr (.inr (.inr ⟨rfl, hsize⟩))))

theorem refused_write_kept :
    ¬ ∀ (s s' : SyscallState) (fd count : Nat) (buf : Option Bytes) (realloc : Realloc)
      (malloc : Bool), SyscallReachable s →
      sysWriteWith realloc malloc s fd buf count = .ok (-1, s') → Unchanged s s' fd := by
  intro hall
  have hcall : (sysWriteWith .moves true (called protectedLater) 3 (some (str "X")) 1).toOption.map
      (fun p => (p.1, (p.2.fdTable 3).position)) = some (-1, 1) := by decide +kernel
  cases hwrite : sysWriteWith .moves true (called protectedLater) 3 (some (str "X")) 1 with
  | error f =>
    rw [hwrite] at hcall
    cases hcall
  | ok p =>
    obtain ⟨r, s'⟩ := p
    rw [hwrite] at hcall
    obtain ⟨rfl, hposition⟩ := Prod.mk.inj (Option.some.inj hcall)
    have hsame := hall (called protectedLater) s' 3 1 (some (str "X")) .moves true
      (syscallReachable_called (by decide +kernel)) hwrite
    have hstart : ((called protectedLater).fdTable 3).position = 0 := by decide +kernel
    rw [hsame.position, hstart] at hposition
    cases hposition

end Results

end ZoraVM.Kernel
