import ZoraVM.Shell.MoveCommand

namespace ZoraVM.Shell

open Foundation Vfs

variable {s : VfsState} {p q dir name c r : Bytes} {n m parent : Nat} {a b e : Attr}

section Runs

variable {s' : VfsState} {report : Report} {src dest : Bytes} {r : Int} {found : Option Nat}

theorem copyNodeData_cases (h : copyNodeData s n found = .ok s') :
    s' = s ∨ ∃ d b, found = some d ∧ s' = storeData s d s.blocks (some b) := by
  obtain ⟨a, _, hrest⟩ := Outcome.bind_eq_ok.mp h
  cases found with
  | none => exact .inl (Except.ok.inj hrest).symm
  | some d =>
    cases hdata : a.data with
    | none =>
      simp only [hdata] at hrest
      exact .inl (Except.ok.inj hrest).symm
    | some pa =>
      simp only [hdata] at hrest
      split at hrest
      · cases hrest
      · obtain ⟨b, _, hb⟩ := Outcome.bind_eq_ok.mp hrest
        exact .inr ⟨d, b, rfl, (Except.ok.inj hb).symm⟩

-- The block the destination had before, if any, is nobody's from then on.
theorem consistent_copyNodeData (h : Consistent s) (hfind : vfsFindNode s q = .ok found)
    (hcopy : copyNodeData s n found = .ok s') : Consistent s' := by
  rcases copyNodeData_cases hcopy with rfl | ⟨d, b, rfl, rfl⟩
  · exact h
  · obtain ⟨hlive, hwalk⟩ := vfsFindNode_ok hfind
    have hs := h hlive
    obtain ⟨a, ha⟩ := Forest.live_iff_valAt.mp (hs.tree.live_walk hlive hwalk)
    refine fun _ => hs.update ha rfl ?_ ?_
    · intro p hp
      obtain rfl := Option.some.inj hp
      exact ⟨b, Heap.get_alloc_self _ _, Nat.le_refl _⟩
    · intro m e p _ he hp
      have hne := Nat.ne_of_lt (hs.lt_size he hp)
      refine ⟨fun hfa => hne (Option.some.inj hfa).symm, ?_⟩
      exact Heap.get_alloc_of_ne hne

-- What cp and mv do alike, up to the copied data.
def copyFirst (s : VfsState) (src dest : Bytes) (finish : VfsState → Outcome (Report × VfsState)) :
    Outcome (Report × VfsState) := do
  let srcFull := fullPath s.currentDirectory src
  let destFull := fullPath s.currentDirectory dest
  match ← vfsFindNode s srcFull with
  | none => .ok (.noSuchFile, s)
  | some n =>
    let a ← nodeAt s n
    if a.isDirectory then .ok (.isDirectory, s)
    else
      let (r, s) ← vfsCreateFile s destFull
      if r ≠ 0 then .ok (.notCreated, s)
      else
        let s ← copyNodeData s n (← vfsFindNode s destFull)
        finish s

theorem copyFirst_cases {finish : VfsState → Outcome (Report × VfsState)}
    (h : copyFirst s src dest finish = .ok (report, s')) :
    s' = s ∨ ∃ r t, vfsCreateFile s (fullPath s.currentDirectory dest) = .ok (r, t) ∧
      (s' = t ∨ ∃ n found u, vfsFindNode t (fullPath s.currentDirectory dest) = .ok found ∧
        copyNodeData t n found = .ok u ∧ finish u = .ok (report, s')) := by
  obtain ⟨node, _, hrest⟩ := Outcome.bind_eq_ok.mp h
  cases node with
  | none => exact .inl (Prod.mk.inj (Except.ok.inj hrest)).2.symm
  | some n =>
    obtain ⟨a, _, hrest⟩ := Outcome.bind_eq_ok.mp hrest
    split at hrest
    · exact .inl (Prod.mk.inj (Except.ok.inj hrest)).2.symm
    · obtain ⟨⟨r, t⟩, hcreate, hrest⟩ := Outcome.bind_eq_ok.mp hrest
      refine .inr ⟨r, t, hcreate, ?_⟩
      dsimp only at hrest
      split at hrest
      · exact .inl (Prod.mk.inj (Except.ok.inj hrest)).2.symm
      · obtain ⟨found, hfound, hrest⟩ := Outcome.bind_eq_ok.mp hrest
        obtain ⟨u, hcopy, hfinish⟩ := Outcome.bind_eq_ok.mp hrest
        exact .inr ⟨n, found, u, hfound, hcopy, hfinish⟩

theorem cpCommand_cases (h : cpCommand s src dest = .ok (report, s')) :
    s' = s ∨ ∃ r t, vfsCreateFile s (fullPath s.currentDirectory dest) = .ok (r, t) ∧
      (s' = t ∨ ∃ n found, vfsFindNode t (fullPath s.currentDirectory dest) = .ok found ∧
        copyNodeData t n found = .ok s') := by
  rcases @copyFirst_cases s s' report src dest (fun s => .ok (.copied, s)) h with
    rfl | ⟨r, t, hcreate, rfl | ⟨n, found, u, hfound, hcopy, hfinish⟩⟩
  · exact .inl rfl
  · exact .inr ⟨r, s', hcreate, .inl rfl⟩
  · obtain ⟨_, rfl⟩ := Prod.mk.inj (Except.ok.inj hfinish)
    exact .inr ⟨r, t, hcreate, .inr ⟨n, found, hfound, hcopy⟩⟩

theorem mvCommand_cases (h : mvCommand s src dest = .ok (report, s')) :
    s' = s ∨ ∃ r t, vfsCreateFile s (fullPath s.currentDirectory dest) = .ok (r, t) ∧
      (s' = t ∨ ∃ n found u r', vfsFindNode t (fullPath s.currentDirectory dest) = .ok found ∧
        copyNodeData t n found = .ok u ∧
        vfsDeleteFile u (fullPath s.currentDirectory src) = .ok (r', s')) := by
  rcases @copyFirst_cases s s' report src dest (fun u => do
      let (r, u) ← vfsDeleteFile u (fullPath s.currentDirectory src)
      .ok (if r = 0 then .moved else .notRemoved, u)) h with
    rfl | ⟨r, t, hcreate, rfl | ⟨n, found, u, hfound, hcopy, hfinish⟩⟩
  · exact .inl rfl
  · exact .inr ⟨r, s', hcreate, .inl rfl⟩
  · obtain ⟨⟨r', w⟩, hdelete, hw⟩ := Outcome.bind_eq_ok.mp hfinish
    obtain ⟨_, rfl⟩ := Prod.mk.inj (Except.ok.inj hw)
    exact .inr ⟨r, t, hcreate, .inr ⟨n, found, u, r', hfound, hcopy, hdelete⟩⟩

theorem consistent_shellStep {call : ShellCall} (h : Consistent s)
    (hstep : shellStep s call = some s') : Consistent s' := by
  cases call with
  | vfs c => exact consistent_step h hstep
  | cp src dest =>
    simp only [shellStep] at hstep
    split at hstep
    · next report t hcall =>
      obtain rfl := Option.some.inj hstep
      rcases cpCommand_cases hcall with rfl | ⟨r, u, hcreate, hrest⟩
      · exact h
      · have hu := consistent_createFile h hcreate
        rcases hrest with rfl | ⟨n, found, hfound, hcopy⟩
        · exact hu
        · exact consistent_copyNodeData hu hfound hcopy
    · cases hstep
  | mv src dest =>
    simp only [shellStep] at hstep
    split at hstep
    · next report t hcall =>
      obtain rfl := Option.some.inj hstep
      rcases mvCommand_cases hcall with rfl | ⟨r, u, hcreate, hrest⟩
      · exact h
      · have hu := consistent_createFile h hcreate
        rcases hrest with rfl | ⟨n, found, w, r', hfound, hcopy, hdelete⟩
        · exact hu
        · exact consistent_deleteFile (consistent_copyNodeData hu hfound hcopy)
            hdelete
    · cases hstep

theorem ShellReachable.consistent (h : ShellReachable s) : Consistent s := by
  obtain ⟨junk, host, clock, s₀, calls, hinit, hrun⟩ := h
  have hstart : Consistent s₀ := by
    refine vfsInit_induct (fun _ => sound_blank junk host clock) ?_ hinit
    exact fun s s' path r _ hs hcall => consistent_mkdir hs hcall
  exact hrun.invariant hstart fun s c s' hs _ hstep => consistent_shellStep hs hstep

theorem ShellReachable.of_reachable (h : Reachable s) : ShellReachable s := by
  obtain ⟨calls, junk, host, clock, s₀, hinit, hrun⟩ := h
  refine ⟨junk, host, clock, s₀, calls.map .vfs, hinit, ?_⟩
  clear hinit
  induction hrun with
  | start => exact .start
  | call _ _ hs ih =>
    rw [List.map_append]
    exact .call ih trivial hs

end Runs

section Law

variable {src dest : Bytes}

theorem not_keeps_of_overflow {f : Fault} (S : Source s p n a c)
    (hsrc : fullPath s.currentDirectory src = p) (hdest : fullPath s.currentDirectory dest = q)
    (hsplit : splitPath q = .error f) :
    ¬ CopyKeeps s src dest c ∧ ¬ MoveKeeps s src dest c := by
  have hcreate : vfsCreateFile s q = .error f := by simp [vfsCreateFile, hsplit, bind, Except.bind]
  constructor
  · rintro ⟨report, s', hcall, _⟩
    simp [cpCommand, hsrc, hdest, S.find, nodeAt_of_valAt S.node, S.file, hcreate, bind,
      Except.bind] at hcall
  · rintro ⟨report, s', hcall, _⟩
    simp [mvCommand, hsrc, hdest, S.find, nodeAt_of_valAt S.node, S.file, hcreate, bind,
      Except.bind] at hcall

theorem copy_and_move_keep_iff (hreach : ShellReachable s)
    (hfind : vfsFindNode s (fullPath s.currentDirectory src) = .ok (some n))
    (ha : Forest.valAt s.nodes n = some a) (hfile : a.isDirectory = false ∧ a.isSymlink = false)
    (hperm : permits s.identity a s.identity.vfsCurrentUser (permRead >>> 6) = true)
    (hread : readBytes s (fullPath s.currentDirectory src) = some c)
    (hother : AbsentOrOther s (fullPath s.currentDirectory dest) n) :
    (CopyKeeps s src dest c ↔
        Copyable s (fullPath s.currentDirectory src) (fullPath s.currentDirectory dest) a c) ∧
      (MoveKeeps s src dest c ↔
        Movable s (fullPath s.currentDirectory src) (fullPath s.currentDirectory dest) n a c) := by
  have hsound := hreach.consistent (vfsFindNode_ok hfind).1
  have S : Source s (fullPath s.currentDirectory src) n a c :=
    ⟨hsound, hfind, ha, hfile.1, hperm, hread⟩
  cases hsplit : splitPath (fullPath s.currentDirectory dest) with
  | error f =>
    obtain ⟨hcopy, hmove⟩ := not_keeps_of_overflow S rfl rfl hsplit
    simp [hcopy, hmove, Copyable, Movable, hsplit]
  | ok parts =>
    exact ⟨copyKeeps_iff S rfl rfl hsplit hother, moveKeeps_iff S rfl rfl hsplit hother⟩

def writtenFile : VfsState :=
  ran (fun _ _ => true) (openHost []) [.createFile (str "/f"), .writeFile (str "/f") (str "hi")]

def writtenNode : Attr :=
  ⟨str "f", false, false, none, 2, some 0, none, defaultFilePerms, str "guest", str "users", 0, 0⟩

theorem reachable_writtenFile : ShellReachable writtenFile := by
  have hreach := reachableBy_ran (fun _ _ => true) (openHost [])
    [.createFile (str "/f"), .writeFile (str "/f") (str "hi")] (by decide +kernel) (by decide +kernel)
  exact .of_reachable ⟨_, hreach.mono fun _ _ _ => trivial⟩

theorem find_writtenFile : vfsFindNode writtenFile (fullPath writtenFile.currentDirectory (str "f")) =
    .ok (some 7) := by
  rw [vfsFindNode_of_live (by decide +kernel)]
  exact congrArg Except.ok (by decide +kernel)

theorem valAt_writtenFile : Forest.valAt writtenFile.nodes 7 = some writtenNode := by decide +kernel

theorem absent_writtenFile :
    vfsFindNode writtenFile (fullPath writtenFile.currentDirectory (str "g")) = .ok none := by
  rw [vfsFindNode_of_live (by decide +kernel)]
  exact congrArg Except.ok (by decide +kernel)

theorem copy_and_move_keep_text :
    (CopyKeeps writtenFile (str "f") (str "g") (str "hi") ↔
        Copyable writtenFile (fullPath writtenFile.currentDirectory (str "f"))
          (fullPath writtenFile.currentDirectory (str "g")) writtenNode (str "hi")) ∧
      (MoveKeeps writtenFile (str "f") (str "g") (str "hi") ↔
        Movable writtenFile (fullPath writtenFile.currentDirectory (str "f"))
          (fullPath writtenFile.currentDirectory (str "g")) 7 writtenNode (str "hi")) :=
  copy_and_move_keep_iff reachable_writtenFile find_writtenFile valAt_writtenFile ⟨rfl, rfl⟩
    (by decide +kernel) (by decide +kernel) (.inl absent_writtenFile)

def mountedFile : VfsState :=
  ran (fun _ _ => true) (openHost [(Location.resolve (str "C:\\d"), .directory),
    (Location.resolve (str "C:\\d\\f"), .file (str "hi"))])
    [.mountPersistent (str "/m") (str "C:\\d")]

def mountedNode : Attr :=
  ⟨str "f", false, false, none, 2, none, some (str "C:\\d\\f"), defaultFilePerms, str "guest",
    str "users", 0, 0⟩

theorem reachable_mountedFile : ShellReachable mountedFile := by
  have hreach := reachableBy_ran (fun _ _ => true) (openHost
    [(Location.resolve (str "C:\\d"), .directory), (Location.resolve (str "C:\\d\\f"), .file (str "hi"))])
    [.mountPersistent (str "/m") (str "C:\\d")] (by decide +kernel) (by decide +kernel)
  exact .of_reachable ⟨_, hreach.mono fun _ _ _ => trivial⟩

theorem unloaded_copy_empty :
    ¬ ∀ (s : VfsState) (src dest c : Bytes) (n : Nat) (a : Attr), ShellReachable s →
      vfsFindNode s (fullPath s.currentDirectory src) = .ok (some n) →
      Forest.valAt s.nodes n = some a → a.isDirectory = false ∧ a.isSymlink = false →
      permits s.identity a s.identity.vfsCurrentUser (permRead >>> 6) = true →
      readBytes s (fullPath s.currentDirectory src) = some c →
      AbsentOrOther s (fullPath s.currentDirectory dest) n →
      CopyKeeps s src dest c ∧ MoveKeeps s src dest c := by
  intro hall
  have hfind : vfsFindNode mountedFile (fullPath mountedFile.currentDirectory (str "/m/f")) =
      .ok (some 8) := by
    rw [vfsFindNode_of_live (by decide +kernel)]
    exact congrArg Except.ok (by decide +kernel)
  have habsent : vfsFindNode mountedFile (fullPath mountedFile.currentDirectory (str "/g")) =
      .ok none := by
    rw [vfsFindNode_of_live (by decide +kernel)]
    exact congrArg Except.ok (by decide +kernel)
  obtain ⟨⟨report, s', hcall, hkeep, _⟩, _⟩ := hall mountedFile (str "/m/f") (str "/g") (str "hi") 8
    mountedNode reachable_mountedFile hfind (by decide +kernel) ⟨rfl, rfl⟩ (by decide +kernel)
    (by decide +kernel) (.inl habsent)
  have hlost : ((cpCommand mountedFile (str "/m/f") (str "/g")).toOption.any fun x =>
      x.1 == .copied && (readBytes x.2 (fullPath mountedFile.currentDirectory (str "/g"))).isNone) =
      true := by decide +kernel
  simp only [hcall, Except.toOption, Option.any_some, Bool.and_eq_true, beq_iff_eq,
    Option.isNone_iff_eq_none] at hlost
  have hread := hkeep hlost.1
  rw [hlost.2] at hread
  cases hread

end Law

end ZoraVM.Shell
