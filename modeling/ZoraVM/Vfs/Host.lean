import ZoraVM.Foundation.Location

namespace ZoraVM.Vfs

open Foundation

def maxPath : Nat := 260
def maxFileSize : Nat := 16 * 1024 * 1024

inductive HostEntry where
  | directory
  | file (content : Bytes)
  deriving DecidableEq, Repr

inductive HostCall where
  | createDirectory (path : Bytes)
  | openWrite (path : Bytes)
  | deleteFile (path : Bytes)
  | removeDirectory (path : Bytes)
  deriving DecidableEq, Repr

def HostCall.path : HostCall → Bytes
  | .createDirectory p => p
  | .openWrite p => p
  | .deleteFile p => p
  | .removeDirectory p => p

-- What the operating system refuses for reasons of its own is in `mayRead` and `mayWrite`;
-- `calls` is the history of the changes asked of the host, newest first.
structure Host where
  entries : List (Location × HostEntry)
  mayRead : Location → Bool
  mayWrite : Location → Bool
  calls : List HostCall

namespace Host

def entry (h : Host) (l : Location) : Option HostEntry := h.entries.lookup l

def fileAt (h : Host) (l : Location) : Option Bytes :=
  match h.entry l with
  | some (.file content) => some content
  | _ => none

def record (h : Host) (c : HostCall) : Host := { h with calls := c :: h.calls }

def remove (h : Host) (l : Location) : Host :=
  { h with entries := h.entries.filter fun x => x.1 != l }

def set (h : Host) (l : Location) (e : HostEntry) : Host :=
  { h with entries := (l, e) :: (h.remove l).entries }

-- fopen(path, "rb") and reading to the end.
def openRead (h : Host) (path : Bytes) : Option Bytes :=
  if h.mayRead (Location.resolve path) then h.fileAt (Location.resolve path) else none

def writable (h : Host) (l : Location) : Bool := h.mayWrite l && h.entry l != some .directory

-- fopen(path, "wb"), fwrite and fclose.
def openWrite (h : Host) (path content : Bytes) : Bool × Host :=
  let l := Location.resolve path
  if h.writable l then (true, (h.set l (.file content)).record (.openWrite path))
  else (false, h.record (.openWrite path))

def createDirectory (h : Host) (path : Bytes) : Bool × Host :=
  let l := Location.resolve path
  if path != [] && h.mayWrite l && h.entry l == none then
    (true, (h.set l .directory).record (.createDirectory path))
  else (false, h.record (.createDirectory path))

def deleteFile (h : Host) (path : Bytes) : Host :=
  let l := Location.resolve path
  if h.mayWrite l && (h.fileAt l).isSome then (h.remove l).record (.deleteFile path)
  else h.record (.deleteFile path)

def listing (h : Host) (l : Location) : List (Bytes × HostEntry) :=
  h.entries.filterMap fun x =>
    match x.1.parts with
    | [] => none
    | name :: parts => if x.1.rooted = l.rooted ∧ parts = l.parts then some (name, x.2) else none

def removeDirectory (h : Host) (path : Bytes) : Host :=
  let l := Location.resolve path
  if h.mayWrite l && h.entry l == some .directory && (h.listing l).isEmpty then
    (h.remove l).record (.removeDirectory path)
  else h.record (.removeDirectory path)

-- FindFirstFile and FindNextFile: a search for "*" lists a directory, another one finds the
-- entry of that path. The entries "." and ".." are not listed, the callers skip them.
def find (h : Host) (search : Bytes) : List (Bytes × HostEntry) :=
  let l := Location.resolve search
  match l.parts with
  | [] => []
  | name :: parts =>
    if name = [42] then h.listing ⟨l.rooted, parts⟩
    else ((h.entry l).map fun e => (name, e)).toList

def ensureDirectory (h : Host) (path : Bytes) : Bool × Host :=
  if h.entry (Location.resolve path) = none then h.createDirectory path else (true, h)

-- The loop of create_directory_recursive: `seen` is the part of temp_path behind ptr, where the
-- separators have been put back as '/'.
def createPrefixes (h : Host) (seen : Bytes) : Bytes → Bool × Host
  | [] => h.ensureDirectory seen
  | c :: rest =>
    if Location.isSeparator c then
      match h.ensureDirectory seen with
      | (true, h') => createPrefixes h' (seen ++ [slash]) rest
      | (false, h') => (false, h')
    else createPrefixes h (seen ++ [c]) rest

def createDirectoryRecursive (h : Host) (path : Bytes) : Bool × Host :=
  h.createPrefixes [] (clip maxPath path)

section Lookup

variable {h : Host} {l k : Location}

theorem lookup_filter {β : Type} (es : List (Location × β)) (l k : Location) :
    (es.filter fun x => x.1 != l).lookup k = if k = l then none else es.lookup k := by
  induction es with
  | nil => simp
  | cons x es ih =>
    obtain ⟨m, e⟩ := x
    by_cases hm : m = l
    · subst hm
      rw [List.filter_cons_of_neg (by simp), ih]
      by_cases hk : k = m
      · simp [hk]
      · have hbeq : (k == m) = false := by simpa using hk
        simp [List.lookup_cons, hk, hbeq]
    · rw [List.filter_cons_of_pos (by simpa using hm), List.lookup_cons, List.lookup_cons, ih]
      by_cases hk : k = m
      · simp [hk, hm]
      · have hbeq : (k == m) = false := by simpa using hk
        simp [hbeq]

theorem entry_remove (h : Host) (l k : Location) :
    (h.remove l).entry k = if k = l then none else h.entry k := lookup_filter h.entries l k

theorem entry_set (h : Host) (l k : Location) (e : HostEntry) :
    (h.set l e).entry k = if k = l then some e else h.entry k := by
  have hrest := lookup_filter h.entries l k
  by_cases hk : k = l
  · simp [entry, set, hk]
  · have hbeq : (k == l) = false := by simpa using hk
    simp [entry, set, remove, hk, hbeq, List.lookup_cons, hrest]

theorem fileAt_set_file (h : Host) (l k : Location) (content : Bytes) :
    (h.set l (.file content)).fileAt k = if k = l then some content else h.fileAt k := by
  by_cases hk : k = l
  · simp [fileAt, entry_set, hk]
  · simp [fileAt, entry_set, hk]

theorem openRead_record (h : Host) (c : HostCall) (path : Bytes) :
    (h.record c).openRead path = h.openRead path := rfl

theorem openRead_set_file (h : Host) (l : Location) (content path : Bytes) :
    (h.set l (.file content)).openRead path =
      if Location.resolve path = l then
        if h.mayRead l then some content else none
      else h.openRead path := by
  have hmay : (h.set l (.file content)).mayRead = h.mayRead := rfl
  by_cases hl : Location.resolve path = l
  · simp [openRead, fileAt_set_file, hmay, hl]
  · simp [openRead, fileAt_set_file, hmay, hl]

theorem openRead_openWrite (h : Host) (path content q : Bytes) :
    (h.openWrite path content).2.openRead q =
      if h.writable (Location.resolve path) = true ∧ Location.resolve q = Location.resolve path then
        if h.mayRead (Location.resolve q) then some content else none
      else h.openRead q := by
  by_cases hw : h.writable (Location.resolve path) = true
  · by_cases hq : Location.resolve q = Location.resolve path
    · simp [openWrite, hw, hq, openRead_record, openRead_set_file]
    · simp [openWrite, hw, hq, openRead_record, openRead_set_file]
  · simp [openWrite, hw, openRead_record]

theorem fileAt_remove (h : Host) (l k : Location) :
    (h.remove l).fileAt k = if k = l then none else h.fileAt k := by
  by_cases hk : k = l
  · simp [fileAt, entry_remove, hk]
  · simp [fileAt, entry_remove, hk]

theorem fileAt_set_directory (h : Host) (l k : Location) :
    (h.set l .directory).fileAt k = if k = l then none else h.fileAt k := by
  by_cases hk : k = l
  · simp [fileAt, entry_set, hk]
  · simp [fileAt, entry_set, hk]

theorem openRead_congr {h' : Host} {path : Bytes} (hmay : h'.mayRead = h.mayRead)
    (hfile : h'.fileAt (Location.resolve path) = h.fileAt (Location.resolve path)) :
    h'.openRead path = h.openRead path := by simp [openRead, hmay, hfile]

theorem openRead_deleteFile (h : Host) {path q : Bytes}
    (hne : Location.resolve q ≠ Location.resolve path) :
    (h.deleteFile path).openRead q = h.openRead q := by
  unfold deleteFile
  dsimp only
  split
  · rw [openRead_record]
    exact openRead_congr rfl (by rw [fileAt_remove, if_neg hne])
  · rfl

theorem openRead_createDirectory (h : Host) (path q : Bytes) :
    (h.createDirectory path).2.openRead q = h.openRead q := by
  unfold createDirectory
  dsimp only
  split
  · next hok =>
    have hfree : h.entry (Location.resolve path) = none := by
      simp only [Bool.and_eq_true, beq_iff_eq] at hok
      exact hok.2
    rw [openRead_record]
    refine openRead_congr rfl ?_
    rw [fileAt_set_directory]
    split
    · next hq => simp [fileAt, hq, hfree]
    · rfl
  · rfl

theorem openRead_removeDirectory (h : Host) (path q : Bytes) :
    (h.removeDirectory path).openRead q = h.openRead q := by
  unfold removeDirectory
  dsimp only
  split
  · next hok =>
    have hdir : h.entry (Location.resolve path) = some .directory := by
      simp only [Bool.and_eq_true, beq_iff_eq] at hok
      exact hok.1.2
    rw [openRead_record]
    refine openRead_congr rfl ?_
    rw [fileAt_remove]
    split
    · next hq => simp [fileAt, hq, hdir]
    · rfl
  · rfl

end Lookup

end Host

end ZoraVM.Vfs
