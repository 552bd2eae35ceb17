import ZoraVM.Kernel.DescriptorIsolation

namespace ZoraVM.Kernel

open Foundation Vfs

structure Delivery where
  count : Nat
  result : Int
  bytes : Bytes
  deriving DecidableEq, Repr

def delivered (log : List Delivery) : Bytes := (log.map Delivery.bytes).flatten

def requested (log : List Delivery) : Nat := (log.map Delivery.count).sum

def deliveryOf (fd : Nat) (s : SyscallState) : Syscall → List Delivery
  | .sysRead fd' true count =>
    if fd' = fd then
      match sysRead s fd true count with
      | .ok (r, bytes, _) => [⟨count, r, bytes⟩]
      | .error _ => []
    else []
  | _ => []

def deliveredStep (fd : Nat) (t : SyscallState × List Delivery) (c : Syscall) :
    Option (SyscallState × List Delivery) :=
  (syscallStep t.1 c).map fun s' => (s', t.2 ++ deliveryOf fd t.1 c)

def Syscall.spares (fd : Nat) : Syscall → Bool
  | .sysWrite .. => false
  | .sysClose fd' => fd' != fd
  | .vfs (.writeFile ..) => false
  | .vfs (.deleteFile ..) => false
  | _ => true

def HasContent (s : VfsState) (path c : Bytes) : Prop :=
  ∃ n a, vfsFindNode s path = .ok (some n) ∧ Forest.valAt s.nodes n = some a ∧
    contentOf s a = some c ∧ ∀ p, a.data = some p → ∃ b, s.blocks.get p = some b ∧ a.size ≤ b.length

structure DeliversNext (c done : Bytes) (d : Delivery) : Prop where
  length : d.bytes.length = min d.count (c.length - done.length)
  result : d.result = returned d.bytes.length
  ended : done.length = c.length → d.result = 0

structure InSequence (c : Bytes) (log : List Delivery) : Prop where
  whole : delivered log = c.take (requested log)
  each : ∀ before d after, log = before ++ d :: after → DeliversNext c (delivered before) d

variable {s s' s₀ t : SyscallState} {fd count : Nat} {c path : Bytes} {r : Int}

section Log

variable {log : List Delivery} {d : Delivery}

theorem delivered_concat (log : List Delivery) (d : Delivery) :
    delivered (log ++ [d]) = delivered log ++ d.bytes := by
  simp [delivered]

theorem requested_concat (log : List Delivery) (d : Delivery) :
    requested (log ++ [d]) = requested log + d.count := by
  simp [requested]

theorem returned_zero : returned 0 = 0 := rfl

theorem delivers_next {done : Bytes} (hbytes : d.bytes = (c.drop done.length).take d.count)
    (hresult : d.result = returned d.bytes.length) : DeliversNext c done d := by
  have hlength : d.bytes.length = min d.count (c.length - done.length) := by
    rw [hbytes, List.length_take, List.length_drop]
  refine ⟨hlength, hresult, fun hend => ?_⟩
  have hnone : d.bytes.length = 0 := by omega
  rw [hresult, hnone, returned_zero]

theorem InSequence.nil (c : Bytes) : InSequence c [] := by
  refine ⟨rfl, fun before d after heq => ?_⟩
  simp at heq

theorem InSequence.concat (h : InSequence c log)
    (hbytes : d.bytes = (c.drop (delivered log).length).take d.count)
    (hresult : d.result = returned d.bytes.length) : InSequence c (log ++ [d]) := by
  refine ⟨?_, fun before e after heq => ?_⟩
  · have hdrop : c.drop (delivered log).length = c.drop (requested log) := by
      rw [h.whole, List.length_take]
      rcases Nat.le_total (requested log) c.length with hle | hge
      · rw [Nat.min_eq_left hle]
      · rw [Nat.min_eq_right hge, List.drop_length, List.drop_of_length_le hge]
    rw [delivered_concat, requested_concat, hbytes, hdrop, h.whole, List.take_add]
  · rcases List.eq_nil_or_concat after with rfl | ⟨after', e', rfl⟩
    · obtain ⟨rfl, hlast⟩ := List.append_inj' heq rfl
      obtain rfl := (List.cons.inj hlast).1
      exact delivers_next hbytes hresult
    · rw [List.concat_eq_append, ← List.cons_append, ← List.append_assoc] at heq
      exact h.each before e after' (List.append_inj' heq rfl).1

end Log

section Kept

variable {v v' : VfsState}

def KeepsBlocks (v v' : VfsState) : Prop :=
  ∀ p b, v.blocks.get p = some b → v'.blocks.get p = some b

theorem KeepsBlocks.of_eq (h : v'.blocks = v.blocks) : KeepsBlocks v v' := by
  intro p b hb
  rwa [h]

theorem KeepsBlocks.trans {u : VfsState} (h : KeepsBlocks v u) (h' : KeepsBlocks u v') :
    KeepsBlocks v v' := fun p b hb => h' p b (h p b hb)

theorem keepsBlocks_read {found : Option (Option Nat × Nat)}
    (h : vfsReadFile v path = .ok (found, v')) : KeepsBlocks v v' := by
  rcases vfsReadFile_cases h with ⟨_, rfl⟩ | ⟨n, a, _, _, _, _, hload⟩
  · exact .of_eq rfl
  · rcases hload with ⟨_, _, _, rfl⟩ | ⟨_, content, _, _, rfl⟩
    · exact .of_eq rfl
    · exact fun p b hb => Heap.get_alloc_of_get hb

theorem blocks_addNode (v : VfsState) (parent : Nat) (a : Attr) :
    (addNode v parent a).blocks = v.blocks := by
  rw [addNode_eq]

theorem blocks_mkdir (h : vfsMkdir v path = .ok (r, v')) : v'.blocks = v.blocks := by
  rcases vfsMkdir_cases h with rfl | ⟨_, _, _, _, _, _, _, rfl⟩
  · rfl
  · exact blocks_addNode v _ _

theorem blocks_createFile (h : vfsCreateFile v path = .ok (r, v')) : v'.blocks = v.blocks := by
  rcases vfsCreateFile_cases h with ⟨_, rfl⟩ | ⟨_, _, _, _, _, _, rfl⟩
  · rfl
  · exact blocks_addNode v _ _

theorem blocks_mount {hostPath : Bytes} (h : vfsMountPersistent v path hostPath = .ok (r, v')) :
    v'.blocks = v.blocks :=
  mount_induct (P := fun u => u.blocks = v.blocks) (Q := fun u => u.blocks = v.blocks) rfl
    (fun hmade => blocks_mkdir hmade) (fun hu _ => hu) (fun hu _ _ _ => hu) (fun hu => hu) h

theorem keepsBlocks_vfs {call : VfsCall} (hspares : (Syscall.vfs call).spares fd = true)
    (h : vfsCall v call = .ok (r, v')) : KeepsBlocks v v' := by
  cases call with
  | mkdir path => exact .of_eq (blocks_mkdir h)
  | createFile path => exact .of_eq (blocks_createFile h)
  | createSymlink link target =>
    rcases vfsCreateSymlink_cases h with rfl | ⟨_, _, rfl⟩
    · exact .of_eq rfl
    · exact .of_eq rfl
  | deleteFile path => cases hspares
  | rmdir path =>
    rcases vfsRmdir_cases h with ⟨_, rfl⟩ | ⟨_, _, _, _, _, _, _, rfl⟩
    · exact .of_eq rfl
    · exact .of_eq rfl
  | writeFile path data => cases hspares
  | readFile path =>
    obtain ⟨⟨found, u⟩, hread, hrest⟩ := Outcome.bind_eq_ok.mp h
    obtain ⟨_, rfl⟩ := Prod.mk.inj (Except.ok.inj hrest)
    exact keepsBlocks_read hread
  | chmod path mode =>
    rcases vfsChmod_cases h with rfl | ⟨_, _, _, _, _, rfl⟩
    · exact .of_eq rfl
    · exact .of_eq rfl
  | chown path owner group =>
    rcases vfsChown_cases h with rfl | ⟨_, _, _, rfl⟩
    · exact .of_eq rfl
    · exact .of_eq rfl
  | chdir path =>
    rcases vfsChdir_cases h with rfl | ⟨_, rfl⟩
    · exact .of_eq rfl
    · exact .of_eq rfl
  | mountPersistent vmPath hostPath => exact .of_eq (blocks_mount h)
  | setHostRoot hostRoot =>
    obtain ⟨_, rfl⟩ := Prod.mk.inj (Except.ok.inj h)
    exact .of_eq rfl
  | identify identity =>
    obtain ⟨_, rfl⟩ := Prod.mk.inj (Except.ok.inj h)
    exact .of_eq rfl
  | hostChange entries mayRead mayWrite =>
    obtain ⟨_, rfl⟩ := Prod.mk.inj (Except.ok.inj h)
    exact .of_eq rfl
  | wait clock =>
    obtain ⟨_, rfl⟩ := Prod.mk.inj (Except.ok.inj h)
    exact .of_eq rfl

end Kept

section Reading

structure Reading (s : SyscallState) (fd : Nat) (c : Bytes) : Prop where
  valid : validFd s fd = true
  mode : (s.fdTable fd).flags &&& 3 ≠ 1
  size : (s.fdTable fd).size = c.length
  within : (s.fdTable fd).position ≤ c.length
  held : ∃ p b, (s.fdTable fd).data = some p ∧ s.vfs.blocks.get p = some b ∧
    b.take c.length = c

theorem Reading.of_same (h : Reading s fd c) (hfile : s'.fdTable fd = s.fdTable fd)
    (hblocks : KeepsBlocks s.vfs s'.vfs) : Reading s' fd c := by
  obtain ⟨hlow, hhigh, huse⟩ := validFd_iff.mp h.valid
  obtain ⟨p, b, hdata, hb, hc⟩ := h.held
  refine ⟨validFd_iff.mpr ⟨hlow, hhigh, hfile ▸ huse⟩, hfile ▸ h.mode, hfile ▸ h.size,
    hfile ▸ h.within, p, b, hfile ▸ hdata, hblocks p b hb, hc⟩

theorem Reading.set {file : FileDescriptor} (hfd : 3 ≤ fd ∧ fd < maxFds) (huse : file.inUse = true)
    (hmode : file.flags &&& 3 ≠ 1) (hsize : file.size = c.length) (hwithin : file.position ≤ c.length)
    (hheld : ∃ p b, file.data = some p ∧ s.vfs.blocks.get p = some b ∧ b.take c.length = c) :
    Reading (setDescriptor s fd file) fd c := by
  have hself := setDescriptor_self s fd file
  refine ⟨validFd_iff.mpr ⟨hfd.1, hfd.2, ?_⟩, ?_, ?_, ?_, ?_⟩ <;> rw [hself]
  · exact huse
  · exact hmode
  · exact hsize
  · exact hwithin
  · exact hheld

theorem Reading.advanced (h : Reading s fd c) {k : Nat}
    (hk : (s.fdTable fd).position + k ≤ c.length) :
    Reading (setDescriptor s fd (advanced (s.fdTable fd) k)) fd c := by
  obtain ⟨hlow, hhigh, huse⟩ := validFd_iff.mp h.valid
  exact .set ⟨hlow, hhigh⟩ huse h.mode h.size hk h.held

theorem take_drop_of_take {b : Bytes} (h : b.take c.length = c) {i k : Nat} (hk : i + k ≤ c.length) :
    (b.drop i).take k = (c.drop i).take k := by
  conv_rhs => rw [← h]
  rw [List.drop_take, List.take_take, Nat.min_eq_left (by omega)]

theorem Reading.read (h : Reading s fd c) (count : Nat) :
    sysRead s fd true count =
      .ok (returned (min count (c.length - (s.fdTable fd).position)),
        (c.drop (s.fdTable fd).position).take count,
        setDescriptor s fd
          (Kernel.advanced (s.fdTable fd) (min count (c.length - (s.fdTable fd).position)))) := by
  obtain ⟨hlow, _, _⟩ := validFd_iff.mp h.valid
  obtain ⟨p, b, hdata, hb, hc⟩ := h.held
  have hpiece : (c.drop (s.fdTable fd).position).take count =
      (c.drop (s.fdTable fd).position).take (min count (c.length - (s.fdTable fd).position)) := by
    rw [← List.length_drop, List.take_eq_take_min]
  have hstdin : fd ≠ 0 := by omega
  have hwithin := h.within
  simp only [sysRead, Bool.not_true, Bool.false_eq_true, if_false, hstdin, h.valid, h.mode, h.size]
  split
  · next hnone =>
    rw [hpiece, hnone, setDescriptor_still, returned_zero, List.take_zero]
  · have hlength : c.length ≤ b.length := by
      have hle := congrArg List.length hc
      rw [List.length_take] at hle
      omega
    have hfit : (s.fdTable fd).position + min count (c.length - (s.fdTable fd).position) ≤ c.length := by
      omega
    rw [hdata, hpiece, ← take_drop_of_take hc hfit]
    simp only [copyFrom, hb, if_pos (Nat.le_trans hfit hlength)]
    rfl

theorem held_of_read {v v' : VfsState} {data : Option Nat} {size : Nat} (hc : HasContent v path c)
    (hread : vfsReadFile v path = .ok (some (data, size), v')) :
    size = c.length ∧ ∃ p b, data = some p ∧ v'.blocks.get p = some b ∧ b.take c.length = c := by
  obtain ⟨n, a, hfind, ha, hcontent, hstored⟩ := hc
  rcases vfsReadFile_cases hread with ⟨hnone, _⟩ | ⟨m, a', hfind', ha', _, _, hload⟩
  · cases hnone
  obtain rfl := Option.some.inj (Except.ok.inj (hfind.symm.trans hfind'))
  obtain rfl := Option.some.inj (ha.symm.trans ha')
  rcases hload with ⟨p, hp, hgiven, rfl⟩ | ⟨hnone, content, hcontent', hgiven, rfl⟩
  · obtain ⟨rfl, rfl⟩ := Prod.mk.inj (Option.some.inj hgiven)
    obtain ⟨b, hb, hle⟩ := hstored p hp
    rw [contentOf, hp, if_neg (by simp), bytesAt, hb] at hcontent
    obtain rfl := Option.some.inj hcontent
    have hlength : (b.take a.size).length = a.size := by
      rw [List.length_take, Nat.min_eq_left hle]
    exact ⟨hlength.symm, p, b, rfl, hb, by rw [Option.getD_some, hlength]⟩
  · obtain ⟨rfl, rfl⟩ := Prod.mk.inj (Option.some.inj hgiven)
    rw [contentOf, if_pos hnone, hcontent'] at hcontent
    obtain rfl := Option.some.inj hcontent
    exact ⟨rfl, _, _, rfl, Heap.get_alloc_self _ _, List.take_left' rfl⟩

theorem Reading.opened {flags : BitVec 32} (hc : HasContent s.vfs path c)
    (hopen : sysOpen s (some path) flags = .ok (fd, s₀)) (hmode : flags &&& 3 ≠ 1) :
    Reading s₀ fd c ∧ (s₀.fdTable fd).position = 0 := by
  rcases sysOpen_cases hopen with ⟨_, hr, _⟩ | ⟨fd', found, vfs, hfree, hfound, hrest⟩
  · cases hr
  have hsame : vfs = s.vfs := by
    obtain ⟨n, _, hfind, _⟩ := hc
    rw [findOrCreate, hfind] at hfound
    exact (Prod.mk.inj (Except.ok.inj hfound)).2.symm
  subst hsame
  rcases hrest with ⟨_, hr, _⟩ | ⟨n, a, _, _, ⟨_, hr, _⟩ | ⟨content, vfs', _, hread, hrest⟩⟩
  · cases hr
  · cases hr
  rcases hrest with ⟨_, hr, _⟩ | ⟨data, size, rfl, hr, rfl⟩
  · cases hr
  obtain rfl := Int.ofNat.inj hr
  obtain ⟨hsize, hheld⟩ := held_of_read hc hread
  refine ⟨.set (freeFd_some hfree) rfl hmode hsize (Nat.zero_le _) hheld, ?_⟩
  rw [setDescriptor_self]

end Reading

section Runs

variable {log : List Delivery} {call : Syscall}

def ReadsOn (fd : Nat) : Syscall → Prop
  | .sysRead fd' true _ => fd' = fd
  | _ => False

theorem other_call (h : Reading s fd c) (hspares : call.spares fd = true)
    (hother : ¬ ReadsOn fd call) (hcall : syscall s call = .ok (r, s')) :
    s'.fdTable fd = s.fdTable fd ∧ KeepsBlocks s.vfs s'.vfs := by
  obtain ⟨_, _, huse⟩ := validFd_iff.mp h.valid
  cases call with
  | sysOpen path flags =>
    refine ⟨?_, sysOpen_induct (KeepsBlocks.of_eq rfl)
      (fun hv hmade => hv.trans (.of_eq (blocks_createFile hmade)))
      (fun hv hread => hv.trans (keepsBlocks_read hread)) hcall⟩
    rcases sysOpen_touched hcall with ⟨_, hsame⟩ | ⟨fd', _, hlowest, _, _, _, htouched⟩
    · rw [hsame]
    · refine htouched.others fd fun heq => ?_
      exact hlowest.2.2.1 (heq ▸ huse)
  | sysRead fd' buffer count =>
    obtain ⟨⟨r', bytes, u⟩, hread, hrest⟩ := Outcome.bind_eq_ok.mp hcall
    obtain ⟨_, rfl⟩ := Prod.mk.inj (Except.ok.inj hrest)
    cases buffer with
    | false =>
      obtain ⟨_, hpair⟩ := Prod.mk.inj (Except.ok.inj hread)
      obtain ⟨_, rfl⟩ := Prod.mk.inj hpair
      exact ⟨rfl, .of_eq rfl⟩
    | true =>
      have hne : fd ≠ fd' := fun heq => hother heq.symm
      rcases sysRead_cases hread with rfl | ⟨_, toRead, _, rfl⟩
      · exact ⟨rfl, .of_eq rfl⟩
      · exact ⟨setDescriptor_of_ne s hne _, .of_eq rfl⟩
  | sysWrite fd' buf count => cases hspares
  | sysClose fd' =>
    have hne : fd ≠ fd' := by
      rintro rfl
      simp [Syscall.spares] at hspares
    rcases sysClose_cases (Except.ok.inj hcall) with rfl | rfl
    · exact ⟨rfl, .of_eq rfl⟩
    · exact ⟨setDescriptor_of_ne s hne _, .of_eq rfl⟩
  | vfs call =>
    obtain ⟨⟨r', vfs⟩, hvfs, hrest⟩ := Outcome.bind_eq_ok.mp hcall
    obtain ⟨_, rfl⟩ := Prod.mk.inj (Except.ok.inj hrest)
    exact ⟨rfl, keepsBlocks_vfs hspares hvfs⟩

theorem reading_step (h : Reading s fd c) (hposition : (s.fdTable fd).position = (delivered log).length)
    (hlog : InSequence c log) (hspares : call.spares fd = true) {log' : List Delivery}
    (hstep : deliveredStep fd (s, log) call = some (s', log')) :
    Reading s' fd c ∧ (s'.fdTable fd).position = (delivered log').length ∧ InSequence c log' := by
  obtain ⟨u, hu, heq⟩ := Option.map_eq_some_iff.mp hstep
  obtain ⟨rfl, rfl⟩ := Prod.mk.inj heq
  obtain ⟨r, hcall⟩ := syscallStep_ok hu
  by_cases hmine : ReadsOn fd call
  · obtain ⟨count, rfl⟩ : ∃ count, call = .sysRead fd true count := by
      cases call with
      | sysRead fd' buffer count =>
        cases buffer with
        | true => exact ⟨count, by rw [show fd' = fd from hmine]⟩
        | false => cases hmine
      | _ => cases hmine
    have hread := h.read count
    have hwithin := h.within
    simp only [syscall, hread] at hcall
    obtain ⟨_, rfl⟩ := Prod.mk.inj (Except.ok.inj hcall)
    have hlast : deliveryOf fd s (.sysRead fd true count) =
        [⟨count, returned (min count (c.length - (s.fdTable fd).position)),
          (c.drop (s.fdTable fd).position).take count⟩] := by
      simp only [deliveryOf, if_pos, hread]
    rw [hlast]
    refine ⟨h.advanced (by omega), ?_, hlog.concat ?_ ?_⟩
    · rw [setDescriptor_self, position_advanced, delivered_concat, List.length_append, ← hposition,
        List.length_take, List.length_drop]
    · rw [← hposition]
    · rw [List.length_take, List.length_drop]
  · obtain ⟨hfile, hblocks⟩ := other_call h hspares hmine hcall
    have hnone : deliveryOf fd s call = [] := by
      cases call with
      | sysRead fd' buffer count =>
        cases buffer with
        | true => exact if_neg hmine
        | false => rfl
      | _ => rfl
    rw [hnone, List.append_nil]
    exact ⟨h.of_same hfile hblocks, hfile ▸ hposition, hlog⟩

theorem reading_run {calls : List Syscall} (h : Reading s₀ fd c)
    (hstart : (s₀.fdTable fd).position = 0)
    (hrun : Run (deliveredStep fd) (fun _ call => call.spares fd = true) (s₀, []) calls (t, log)) :
    Reading t fd c ∧ (t.fdTable fd).position = (delivered log).length ∧ InSequence c log := by
  refine hrun.invariant (P := fun u => Reading u.1 fd c ∧
    (u.1.fdTable fd).position = (delivered u.2).length ∧ InSequence c u.2) ⟨h, hstart, .nil c⟩ ?_
  rintro ⟨u, done⟩ call ⟨u', done'⟩ ⟨hu, hposition, hlog⟩ hspares hstep
  exact reading_step hu hposition hlog hspares hstep

theorem sequential_reads {flags : BitVec 32} {calls : List Syscall} (hc : HasContent s.vfs path c)
    (hopen : sysOpen s (some path) flags = .ok (fd, s₀)) (hmode : flags &&& 3 ≠ 1)
    (hrun : Run (deliveredStep fd) (fun _ call => call.spares fd = true) (s₀, []) calls (t, log)) :
    InSequence c log ∧
      ∀ count, ∃ result bytes t', sysRead t fd true count = .ok (result, bytes, t') := by
  obtain ⟨hopened, hstart⟩ := Reading.opened hc hopen hmode
  obtain ⟨hreading, _, hlog⟩ := reading_run hopened hstart hrun
  exact ⟨hlog, fun count => ⟨_, _, _, hreading.read count⟩⟩

theorem hasContent_of_read {v : VfsState} (h : Sound v.nodes v.blocks v.root)
    (hread : readBytes v path = some c) : HasContent v path c := by
  unfold readBytes at hread
  split at hread
  · next data size v' hcall =>
    have hbytes := Option.some.inj hread
    rcases vfsReadFile_cases hcall with ⟨hnone, _⟩ | ⟨n, a, hfind, ha, _, _, hload⟩
    · cases hnone
    refine ⟨n, a, hfind, ha, ?_, fun p hp => h.stored ha hp⟩
    rcases hload with ⟨p, hp, hgiven, rfl⟩ | ⟨hnone, content, hcontent, hgiven, rfl⟩
    · obtain ⟨rfl, rfl⟩ := Prod.mk.inj (Option.some.inj hgiven)
      rw [contentOf, hp, if_neg (by simp), hbytes]
    · obtain ⟨rfl, rfl⟩ := Prod.mk.inj (Option.some.inj hgiven)
      rw [contentOf, if_pos hnone, hcontent, ← hbytes, bytesAt, loaded, Heap.get_alloc_self,
        Option.getD_some, List.take_left' rfl]
  · cases hread

def greetingCalls : List VfsCall := [.createFile (str "/f"), .writeFile (str "/f") (str "hello")]

def withGreeting : VfsState := ran (fun _ _ => true) (openHost []) greetingCalls

def afterOpen (s : SyscallState) (path : Bytes) (flags : BitVec 32) : SyscallState :=
  match sysOpen s (some path) flags with
  | .ok (_, s') => s'
  | .error _ => s

theorem sysOpen_afterOpen {flags : BitVec 32}
    (h : (sysOpen s (some path) flags).toOption.map Prod.fst = some r) :
    sysOpen s (some path) flags = .ok (r, afterOpen s path flags) := by
  unfold afterOpen
  cases hopen : sysOpen s (some path) flags with
  | error f =>
    rw [hopen] at h
    cases h
  | ok result =>
    rw [hopen] at h
    obtain rfl := Option.some.inj h
    rfl

def readBy (fd : Nat) (s₀ : SyscallState) (calls : List Syscall) : SyscallState × List Delivery :=
  (exec (guarded (deliveredStep fd) fun _ call => call.spares fd) (s₀, []) calls).getD (s₀, [])

def readsAndMore : List Syscall :=
  [.sysRead 3 true 2, .sysOpen (some (str "/f")) 2, .sysRead 4 true 3, .sysRead 3 true 10,
    .sysClose 4, .sysRead 3 true 1]

theorem sequential_reads_greeting :
    InSequence (str "hello") (readBy 3 (afterOpen (syscallInit withGreeting) (str "/f") 0) readsAndMore).2 ∧
      ∀ count, ∃ result bytes t', sysRead
        (readBy 3 (afterOpen (syscallInit withGreeting) (str "/f") 0) readsAndMore).1 3 true count =
          .ok (result, bytes, t') := by
  have hreach := reachableBy_ran (fun _ _ => true) (openHost []) greetingCalls (by decide +kernel)
    (by decide +kernel)
  have hcontent : HasContent (syscallInit withGreeting).vfs (str "/f") (str "hello") :=
    hasContent_of_read (hreach.consistent (by decide +kernel)) (by decide +kernel)
  have hopen : sysOpen (syscallInit withGreeting) (some (str "/f")) 0 =
      .ok (((3 : Nat) : Int), afterOpen (syscallInit withGreeting) (str "/f") 0) :=
    sysOpen_afterOpen (by decide +kernel)
  have hrun : Run (deliveredStep 3) (fun _ call => call.spares 3 = true)
      (afterOpen (syscallInit withGreeting) (str "/f") 0, []) readsAndMore
      (readBy 3 (afterOpen (syscallInit withGreeting) (str "/f") 0) readsAndMore) :=
    Run.of_exec_isSome (by decide +kernel)
  exact sequential_reads hcontent hopen (by decide) hrun

end Runs

end ZoraVM.Kernel
