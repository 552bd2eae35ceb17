import ZoraVM.Vfs.RelativePaths
import ZoraVM.Vfs.ReadWrite

namespace ZoraVM.Vfs

open Foundation

section Buffers

inductive PathBuffer where
  | parentPath
  | name
  deriving DecidableEq, Repr

-- The indices strcpy stores a text of `length` bytes and its terminator at.
def textStores (buffer : PathBuffer) (length : Nat) : List (PathBuffer × Nat) :=
  (List.range (length + 1)).map (buffer, ·)

def splitStores (path : Bytes) : List (PathBuffer × Nat) :=
  match splitLast slash path with
  | some (dir, name) =>
    textStores .parentPath dir.length ++ textStores .name name.length ++
      if dir = [] then textStores .parentPath 1 else []
  | none => textStores .parentPath 1 ++ textStores .name path.length

def vfsMkdirStores (path : Bytes) : List (PathBuffer × Nat) := splitStores path

def vfsCreateFileStores (path : Bytes) : List (PathBuffer × Nat) := splitStores path

def StaysInside (stores : List (PathBuffer × Nat)) : Prop := ∀ st ∈ stores, st.2 < 256

def ShortParts (path : Bytes) : Prop :=
  (∀ dir name, splitLast slash path = some (dir, name) → dir.length ≤ 255 ∧ name.length ≤ 255) ∧
    (slash ∉ path → path.length ≤ 255)

theorem staysInside_append {a b : List (PathBuffer × Nat)} :
    StaysInside (a ++ b) ↔ StaysInside a ∧ StaysInside b := List.forall_mem_append

theorem staysInside_text (buffer : PathBuffer) (length : Nat) :
    StaysInside (textStores buffer length) ↔ length ≤ 255 := by
  simp only [StaysInside, textStores, List.forall_mem_map, List.mem_range]
  constructor
  · intro h
    exact Nat.le_of_lt_succ (h length (Nat.lt_succ_self length))
  · intro h i hi
    omega

theorem splitStores_inside_iff (path : Bytes) : StaysInside (splitStores path) ↔ ShortParts path := by
  rw [splitStores, ShortParts]
  cases hlast : splitLast slash path with
  | none =>
    have hno := splitLast_eq_none.mp hlast
    simp [staysInside_append, staysInside_text, hno]
  | some ends =>
    obtain ⟨dir, name⟩ := ends
    have hin : slash ∈ path := by
      obtain ⟨rfl, _⟩ := splitLast_eq_some.mp hlast
      simp
    have hroot : StaysInside (if dir = [] then textStores .parentPath 1 else []) := by
      split
      · exact (staysInside_text _ _).mpr (by decide)
      · simp [StaysInside]
    simp [staysInside_append, staysInside_text, hin, hroot]

-- The model's error stands for a store out of bounds, and for nothing else.
theorem splitPath_ok_iff (path : Bytes) :
    (∃ parts, splitPath path = .ok parts) ↔ StaysInside (splitStores path) := by
  rw [splitStores_inside_iff, splitPath, ShortParts]
  cases hlast : splitLast slash path with
  | none =>
    have hno := splitLast_eq_none.mp hlast
    by_cases hlong : 256 ≤ path.length
    · simp [hlong, hno]
      omega
    · simp [hlong, hno]
      omega
  | some ends =>
    obtain ⟨dir, name⟩ := ends
    have hin : slash ∈ path := by
      obtain ⟨rfl, _⟩ := splitLast_eq_some.mp hlast
      simp
    by_cases hlong : 256 ≤ dir.length ∨ 256 ≤ name.length
    · simp [hlong, hin]
      omega
    · simp [hlong, hin]
      omega

theorem split_stays_inside_iff (path : Bytes) :
    StaysInside (vfsMkdirStores path) ∧ StaysInside (vfsCreateFileStores path) ↔ ShortParts path := by
  rw [vfsMkdirStores, vfsCreateFileStores, and_self, splitStores_inside_iff]

theorem long_name_overruns :
    ¬ ∀ path, StaysInside (vfsMkdirStores path) ∧ StaysInside (vfsCreateFileStores path) := by
  intro hall
  have hstores := (hall (List.replicate 256 97)).1
  rw [vfsMkdirStores, splitStores_inside_iff] at hstores
  have hno : slash ∉ List.replicate 256 (97 : UInt8) := by
    rw [List.mem_replicate]
    decide
  have hshort := hstores.2 hno
  rw [List.length_replicate] at hshort
  omega

end Buffers

section Postcondition

def FindsDirectory (s : VfsState) (path : Bytes) : Prop :=
  ∃ n, vfsFindNode s path = .ok (some n) ∧ IsDirectory s.nodes n

def MkdirKept (s : VfsState) (path : Bytes) : Prop :=
  ∀ r s', vfsMkdir s path = .ok (r, s') → (r = 0 → FindsDirectory s' path) ∧ (r = -1 → s' = s)

def ParentFound (s : VfsState) (path : Bytes) : Prop :=
  ∃ dir name parent, splitPath path = .ok (dir, name) ∧ findDirectory s dir = .ok (some parent)

variable {s s' : VfsState} {path dir name : Bytes} {parent n : Nat}

theorem findsDirectory_iff (hlive : s.nodes.live s.root = true) : FindsDirectory s path ↔
    ∃ n, Forest.walk Attr.name s.nodes s.root (pathComponents path) = some n ∧
      IsDirectory s.nodes n := by
  simp only [FindsDirectory, vfsFindNode_of_live hlive, Except.ok.injEq]

theorem isDirectory_link_iff (hp : IsDirectory s.nodes parent) {v : Attr} (hn : s.nodes.live n = true) :
    IsDirectory (Forest.link s.nodes parent v) n ↔ IsDirectory s.nodes n := by
  simp only [IsDirectory, Forest.valAt_link_of_live hp.live v hn]

theorem walk_split (hsplit : splitPath path = .ok (dir, name))
    (hwalk : Forest.walk Attr.name s.nodes s.root (pathComponents dir) = some parent) :
    Forest.walk Attr.name s.nodes s.root (pathComponents path) = some parent ∨
      ∃ shown, pathComponents path = pathComponents dir ++ [shown] ∧
        (shown = name ↔ path.length < 256) ∧
        Forest.walk Attr.name s.nodes s.root (pathComponents path) =
          Forest.childNamed Attr.name s.nodes parent shown := by
  rcases pathComponents_split hsplit with ⟨shown, _, hpath, hshown⟩ | hpath
  · refine .inr ⟨shown, hpath, hshown, ?_⟩
    rw [hpath, Forest.walk_concat, hwalk]
    rfl
  · exact .inl (hpath ▸ hwalk)

theorem existing_finds_iff (hsplit : splitPath path = .ok (dir, name))
    (hfind : findDirectory s dir = .ok (some parent))
    (hnamed : Forest.childNamed Attr.name s.nodes parent name = some n) :
    FindsDirectory s path ↔
      FindsDirectory s path ∨ vfsFindNode s path = .ok none ∧ path.length < 256 := by
  obtain ⟨hlive, hwalk, _⟩ := findDirectory_ok_some hfind
  refine ⟨.inl, fun h => h.elim id ?_⟩
  rintro ⟨hnone, hshort⟩
  rw [vfsFindNode_of_live hlive, Except.ok.injEq] at hnone
  rcases walk_split hsplit hwalk with hpath | ⟨shown, _, hshown, hpath⟩
  · rw [hnone] at hpath
    cases hpath
  · rw [hshown.mpr hshort, hnamed, hnone] at hpath
    cases hpath

theorem findsDirectory_made (htree : Forest.WellFormed s.nodes s.root)
    (hsplit : splitPath path = .ok (dir, name)) (hfind : findDirectory s dir = .ok (some parent))
    (hfree : Forest.childNamed Attr.name s.nodes parent name = none) :
    FindsDirectory (addNode s parent (vfsCreateDirectoryNode s name)) path ↔
      ∃ n, (if pathComponents path = pathComponents dir ++ [name] then some s.nodes.size
        else Forest.walk Attr.name s.nodes s.root (pathComponents path)) = some n ∧
        IsDirectory (Forest.link s.nodes parent (vfsCreateDirectoryNode s name)) n := by
  obtain ⟨hlive, hwalk, hparent⟩ := findDirectory_ok_some hfind
  have hp : IsDirectory s.nodes parent := hparent
  have hkey : (vfsCreateDirectoryNode s name).name = name :=
    clip_of_length_lt (name_of_split hsplit)
  have hafter := htree.walk_link_eq hp.live hwalk (v := vfsCreateDirectoryNode s name)
    (by rw [hkey]; exact hfree) (pathComponents path)
  have hlive' : (addNode s parent (vfsCreateDirectoryNode s name)).nodes.live s.root = true := by
    rw [addNode_eq]
    exact (Forest.live_link hp.live _ s.root).mpr (.inr hlive)
  rw [hkey] at hafter
  rw [← hafter]
  rw [addNode_eq] at hlive' ⊢
  exact findsDirectory_iff hlive'

theorem created_finds_iff (htree : Forest.WellFormed s.nodes s.root)
    (hsplit : splitPath path = .ok (dir, name)) (hfind : findDirectory s dir = .ok (some parent))
    (hfree : Forest.childNamed Attr.name s.nodes parent name = none) :
    FindsDirectory (addNode s parent (vfsCreateDirectoryNode s name)) path ↔
      FindsDirectory s path ∨ vfsFindNode s path = .ok none ∧ path.length < 256 := by
  obtain ⟨hlive, hwalk, hparent⟩ := findDirectory_ok_some hfind
  have hp : IsDirectory s.nodes parent := hparent
  have hkept : ∀ n, Forest.walk Attr.name s.nodes s.root (pathComponents path) = some n →
      (IsDirectory (Forest.link s.nodes parent (vfsCreateDirectoryNode s name)) n ↔
        IsDirectory s.nodes n) := fun n hn =>
    isDirectory_link_iff hp (htree.live_walk hlive hn)
  rw [findsDirectory_made htree hsplit hfind hfree, findsDirectory_iff hlive,
    vfsFindNode_of_live hlive, Except.ok.injEq]
  rcases walk_split hsplit hwalk with hpath | ⟨shown, hpath, hshown, hlookup⟩
  · have hno : pathComponents path ≠ pathComponents dir ++ [name] := by
      intro heq
      rw [heq, Forest.walk_concat, hwalk, Option.bind_some, hfree] at hpath
      cases hpath
    rw [if_neg hno, hpath]
    exact iff_of_true ⟨parent, rfl, hp.link hp.live _⟩ (.inl ⟨parent, rfl, hp⟩)
  · by_cases hshort : path.length < 256
    · obtain rfl := hshown.mpr hshort
      rw [if_pos hpath, hlookup, hfree]
      exact iff_of_true ⟨_, rfl, isDirectory_fresh hp rfl⟩ (.inr ⟨rfl, hshort⟩)
    · have hno : pathComponents path ≠ pathComponents dir ++ [name] := by
        rw [hpath]
        intro heq
        exact hshort (hshown.mp (List.singleton_inj.mp ((List.append_right_inj _).mp heq)))
      rw [if_neg hno]
      simp only [hshort, and_false, or_false]
      exact exists_congr fun n => and_congr_right fun hn => hkept n hn

theorem vfsMkdir_cases_zero {r : Int} (h : vfsMkdir s path = .ok (r, s')) :
    r = 0 ∨ r = -1 ∧ s' = s := by
  obtain ⟨_, _, hrest⟩ := Outcome.bind_eq_ok.mp h
  obtain ⟨found, _, hrest⟩ := Outcome.bind_eq_ok.mp hrest
  cases found with
  | none =>
    obtain ⟨rfl, rfl⟩ := Prod.mk.inj (Except.ok.inj hrest)
    exact .inr ⟨rfl, rfl⟩
  | some parent =>
    left
    dsimp only at hrest
    split at hrest
    · exact (Prod.mk.inj (Except.ok.inj hrest)).1.symm
    · exact (Prod.mk.inj (Except.ok.inj hrest)).1.symm

theorem vfsMkdir_parent (hparent : ParentFound s path) : ∃ s', vfsMkdir s path = .ok (0, s') := by
  obtain ⟨dir, name, parent, hsplit, hfind⟩ := hparent
  simp only [vfsMkdir, hsplit, hfind, bind, Except.bind]
  split
  · exact ⟨_, rfl⟩
  · exact ⟨_, rfl⟩

theorem mkdir_kept_iff (h : Reachable s) (path : Bytes) :
    MkdirKept s path ↔ (ParentFound s path →
      FindsDirectory s path ∨ vfsFindNode s path = .ok none ∧ path.length < 256) := by
  have hfinds : ∀ s', vfsMkdir s path = .ok (0, s') → (FindsDirectory s' path ↔
      FindsDirectory s path ∨ vfsFindNode s path = .ok none ∧ path.length < 256) := by
    intro s' hcall
    obtain ⟨dir, name, parent, hsplit, hfind, hmade⟩ := vfsMkdir_zero hcall
    have htree := (h.shaped (findDirectory_ok_some hfind).1).tree
    rcases hmade with ⟨n, hnamed, rfl⟩ | ⟨hfree, rfl⟩
    · exact existing_finds_iff hsplit hfind hnamed
    · exact created_finds_iff htree hsplit hfind hfree
  constructor
  · intro hkept hparent
    obtain ⟨s', hcall⟩ := vfsMkdir_parent hparent
    exact (hfinds s' hcall).mp ((hkept 0 s' hcall).1 rfl)
  · intro hwhen r s' hcall
    rcases vfsMkdir_cases_zero hcall with rfl | ⟨rfl, rfl⟩
    · obtain ⟨dir, name, parent, hsplit, hfind, _⟩ := vfsMkdir_zero hcall
      exact ⟨fun _ => (hfinds s' hcall).mpr (hwhen ⟨dir, name, parent, hsplit, hfind⟩),
        fun hneg => absurd hneg (by decide)⟩
    · exact ⟨fun hzero => absurd hzero (by decide), fun _ => rfl⟩

theorem isDirectory_of_any {nodes : Forest Attr}
    (h : (Forest.valAt nodes n).any (·.isDirectory) = true) : IsDirectory nodes n := by
  simpa [IsDirectory, Option.any_eq_true] using h

theorem mkdir_kept_iff_tmp : MkdirKept plainDir (str "/tmp/") :=
  (mkdir_kept_iff reachable_plainDir _).mpr fun _ => .inl (by
    rw [findsDirectory_iff (by decide +kernel)]
    exact ⟨3, by decide +kernel, isDirectory_of_any (by decide +kernel)⟩)

theorem mkdir_over_file :
    ¬ ∀ (s : VfsState) (path : Bytes), Reachable s → MkdirKept s path := by
  intro hall
  have hroot : findDirectory oneFile [slash] = .ok (some 0) :=
    findDirectory_of_walk (by decide +kernel) (by decide +kernel)
      (isDirectory_of_any (by decide +kernel))
  have hsplit : splitPath (str "/f") = .ok ([slash], str "f") := by decide +kernel
  have hcall : vfsMkdir oneFile (str "/f") = .ok (0, oneFile) :=
    vfsMkdir_existing hsplit hroot (n := 7) (by decide +kernel)
  obtain ⟨n, hfind, a, ha, hdir⟩ :=
    (hall oneFile (str "/f") reachable_oneFile 0 oneFile hcall).1 rfl
  rw [find_oneFile, Except.ok.injEq, Option.some.injEq] at hfind
  subst hfind
  rw [valAt_oneFile, Option.some.injEq] at ha
  subst ha
  cases hdir

end Postcondition

end ZoraVM.Vfs
