import ZoraVM.Lua.VfsApi
import ZoraVM.Shell.CopiedFile
import ZoraVM.Vfs.RelativePaths

namespace ZoraVM.Lua

open Foundation Vfs Shell

section Statements

variable (s : VfsState) (path content : Bytes)

def storedBytes (a : Attr) : Option Bytes := a.data.map fun p => bytesAt s.blocks (some p) a.size

def yields : Option (Nat × Option Bytes) :=
  match vfsFindNode s path with
  | .ok (some n) => (Forest.valAt s.nodes n).map fun a => (n, storedBytes s a)
  | _ => none

def ReadFaithful : Prop :=
  ∀ stale, ∃ text s', luaVmVfsRead s stale path = .ok (text, s') ∧
    ∀ t, text = some t → readBytes s path = some t

def Holds (s : VfsState) (path content : Bytes) : Prop :=
  ∃ n a, (∀ m, Forest.Denotes Attr.name s.nodes s.root (pathComponents path) m ↔ m = n) ∧
    Forest.valAt s.nodes n = some a ∧ storedBytes s a = some content

def WriteConfined : Prop :=
  ∃ answer s', luaVmVfsWrite s path content = .ok (answer, s') ∧
    (yields s path ≠ none → yields s' path ≠ yields s path →
      ∃ t, vfsWriteFile s path (.bytes content) content.length = .ok (0, t)) ∧
    (answer = true → Holds s' path content)

def WithinAuthority : Prop := ReadFaithful s path ∧ WriteConfined s path content

end Statements

section Conditions

variable (s : VfsState) (path content : Bytes)

def mayRead (a : Attr) : Prop :=
  permits s.identity a s.identity.vfsCurrentUser (permRead >>> 6) = true

def mayWrite (a : Attr) : Prop :=
  a.isDirectory = false ∧ permits s.identity a s.identity.vfsCurrentUser (permWrite >>> 6) = true

def PlainBlock (a : Attr) (block : Bytes) : Prop :=
  mayRead s a ∧ 0 ∈ block ∧ block.takeWhile (· ≠ 0) = block.take a.size

def PlainHostFile (a : Attr) (text : Bytes) : Prop :=
  text.length < longLimit ∧
    (text.length ≤ luaSizeLimit → mayRead s a ∧ textRead text = text ∧ 0 ∉ text)

def Readable (a : Attr) : Prop :=
  match a.data with
  | some p => ∃ block, s.blocks.get p = some block ∧ PlainBlock s a block
  | none => ∀ q text, a.hostPath = some q → zoraPerlPrefix.isPrefixOf q = true →
      s.host.openRead q = some text → PlainHostFile s a text

def ReadGuarded : Prop :=
  persistentPrefix.isPrefixOf path = false ∨
    (s.nodes.live s.root = true ∧ ∀ n a, vfsFindNode s path = .ok (some n) →
      Forest.valAt s.nodes n = some a → a.isDirectory = false → Readable s a)

def NewName : Prop :=
  0 ∉ content ∧ ∀ m, ¬ Forest.Denotes Attr.name s.nodes s.root (pathComponents path) m

def OldName : Prop :=
  ∀ n a, vfsFindNode s path = .ok (some n) → Forest.valAt s.nodes n = some a →
    0 ∉ content ∧ (∀ m, Forest.Denotes Attr.name s.nodes s.root (pathComponents path) m → m = n) ∧
      (mayWrite s a ∨ storedBytes s a = some content)

-- Refused, or the directory is missing, or the path is new. A path that ends in '/' or has 256
-- bytes or more is looked up as another one than the one created.
def WriteGuarded : Prop :=
  writeRefused path content = true ∨
    (s.nodes.live s.root = true ∧ ∃ dir name, splitPath path = .ok (dir, name) ∧
      ∀ parent, findDirectory s dir = .ok (some parent) →
        (NamesEntry path ∧ path.length < 256 → NewName s path content) ∧
          (¬ (NamesEntry path ∧ path.length < 256) → OldName s path content))

end Conditions

variable {s : VfsState} {path content : Bytes} {n : Nat} {a : Attr}

section Reading

variable {stale : Nat → UInt8} {text : Bytes}

theorem cstring_luaBlock (stale : Nat → UInt8) (text : Bytes) :
    cstring (luaBlock stale text) = .ok ((luaBlock stale text).takeWhile (· ≠ 0)) :=
  if_pos (by simp [luaBlock])

theorem luaBlock_faithful_iff :
    (∀ stale, (luaBlock stale text).takeWhile (· ≠ 0) = text) ↔ textRead text = text ∧ 0 ∉ text := by
  constructor
  · intro h
    have hzeros := h fun _ => 0
    have hread : (textRead text).takeWhile (· ≠ 0) = text := by
      have hblock : ∃ rest, luaBlock (fun _ => 0) text = textRead text ++ 0 :: rest := by
        rw [luaBlock, List.append_assoc]
        cases List.range (text.length - (textRead text).length) with
        | nil => exact ⟨[], rfl⟩
        | cons k ks => exact ⟨_, rfl⟩
      obtain ⟨rest, hrest⟩ := hblock
      rw [hrest, text_append_zero] at hzeros
      exact hzeros
    have hshort := (List.takeWhile_sublist (· ≠ 0) (l := textRead text)).length_le
    rw [hread] at hshort
    have hsame : textRead text = text := (textRead_sublist text).eq_of_length_le hshort
    rw [hsame] at hread
    exact ⟨hsame, text_eq_self_iff.mp hread⟩
  · rintro ⟨hsame, hzero⟩ stale
    have hblock : luaBlock stale text = text ++ [0] := by simp [luaBlock, hsame]
    rw [hblock, text_append_zero, text_eq_self_iff.mpr hzero]

theorem luaVmVfsRead_file (hbegins : persistentPrefix.isPrefixOf path = true)
    (hfind : vfsFindNode s path = .ok (some n)) (ha : Forest.valAt s.nodes n = some a)
    (hfile : a.isDirectory = false) :
    luaVmVfsRead s stale path =
      luaLoad s stale n a >>= fun found => found.elim (.ok (none, s)) fun t => luaPushData t n := by
  simp only [luaVmVfsRead, hbegins, hfind, nodeAt_of_valAt ha, hfile, bind, Except.bind]
  cases luaLoad s stale n a with
  | error e => rfl
  | ok found => cases found <;> rfl

theorem luaPushData_eq {p : Nat} {block : Bytes} (ha : Forest.valAt s.nodes n = some a)
    (hdata : a.data = some p) (hblock : s.blocks.get p = some block) :
    luaPushData s n = cstring block >>= fun text => .ok (some text, s) := by
  simp [luaPushData, nodeAt_of_valAt ha, hdata, hblock, bind, Except.bind]

theorem luaPushData_loaded (ha : Forest.valAt s.nodes n = some a) :
    luaPushData (luaLoaded s stale n text) n =
      .ok (some ((luaBlock stale text).takeWhile (· ≠ 0)), luaLoaded s stale n text) := by
  have hval : Forest.valAt (luaLoaded s stale n text).nodes n =
      some (withData (some s.blocks.size) text.length a) := by
    simp [luaLoaded, updateNode, Forest.valAt_update_self, ha]
  rw [luaPushData_eq hval rfl (Heap.get_alloc_self _ _), cstring_luaBlock]
  rfl

section File

variable (hs : Sound s.nodes s.blocks s.root) (hbegins : persistentPrefix.isPrefixOf path = true)
  (hfind : vfsFindNode s path = .ok (some n)) (ha : Forest.valAt s.nodes n = some a)
  (hfile : a.isDirectory = false)

include hbegins hfind ha hfile

include hs in
theorem readFaithful_stored {p : Nat} (hdata : a.data = some p) :
    ReadFaithful s path ↔ ∃ block, s.blocks.get p = some block ∧ PlainBlock s a block := by
  obtain ⟨block, hblock, hsize⟩ := hs.stored ha hdata
  have hcall : ∀ stale, luaVmVfsRead s stale path =
      cstring block >>= fun text => .ok (some text, s) := by
    intro stale
    have hload : luaLoad s stale n a = .ok (some s) := by simp [luaLoad, hdata]
    rw [luaVmVfsRead_file hbegins hfind ha hfile, hload]
    exact luaPushData_eq ha hdata hblock
  have hbytes : readBytes s path =
      if permits s.identity a s.identity.vfsCurrentUser (permRead >>> 6) = true then
        some (block.take a.size)
      else none := by
    have hcontent : contentOf s a = some (block.take a.size) := by
      simp [contentOf, hdata, bytesAt, hblock]
    rw [readBytes_of_file hfind ha hfile, hcontent]
  simp only [ReadFaithful, hcall, hblock, Option.some.injEq, exists_eq_left', PlainBlock, hbytes,
    mayRead]
  by_cases hzero : 0 ∈ block
  · simp only [cstring, if_pos hzero, bind, Except.bind]
    constructor
    · intro h
      obtain ⟨_, _, hcall, htext⟩ := h fun _ => 0
      obtain ⟨rfl, _⟩ := Prod.mk.inj (Except.ok.inj hcall)
      have hread := htext _ rfl
      split at hread
      · next hperm => exact ⟨hperm, hzero, (Option.some.inj hread).symm⟩
      · cases hread
    · rintro ⟨hperm, _, hsame⟩ stale
      refine ⟨_, _, rfl, fun t ht => ?_⟩
      rw [if_pos hperm, ← hsame, ht]
  · simp [cstring, hzero, bind, Except.bind]

theorem readFaithful_host {q : Bytes} (hdata : a.data = none) (hq : a.hostPath = some q)
    (hperl : zoraPerlPrefix.isPrefixOf q = true) (hopen : s.host.openRead q = some text) :
    ReadFaithful s path ↔ PlainHostFile s a text := by
  have hload : ∀ stale, luaLoad s stale n a =
      if longLimit ≤ text.length then .error .bufferOverflow
      else if luaSizeLimit < text.length then .ok none
      else .ok (some (luaLoaded s stale n text)) := by
    intro stale
    simp [luaLoad, hdata, hq, hperl, hopen]
  simp only [ReadFaithful, PlainHostFile, luaVmVfsRead_file hbegins hfind ha hfile, hload]
  by_cases hhuge : longLimit ≤ text.length
  · refine iff_of_false (fun h => ?_) fun h => absurd h.1 (Nat.not_lt.mpr hhuge)
    obtain ⟨_, _, hcall, _⟩ := h fun _ => 0
    rw [if_pos hhuge] at hcall
    cases hcall
  · have hcounted : text.length < longLimit := Nat.lt_of_not_le hhuge
    simp only [if_neg hhuge, hcounted, true_and]
    by_cases hlarge : luaSizeLimit < text.length
    · simp only [if_pos hlarge]
      exact iff_of_true (fun _ => ⟨none, s, rfl, by simp⟩) fun h => absurd h (Nat.not_le.mpr hlarge)
    · have hsmall : text.length ≤ luaSizeLimit := Nat.le_of_not_lt hlarge
      have hcontent : contentOf s a = some text := by
        have hfits : text.length ≤ maxFileSize := Nat.le_trans hsmall (by decide)
        simp [contentOf, hdata, loadable, hfile, hq, hopen, Option.filter, hfits]
      simp only [if_neg hlarge, hsmall, true_implies, mayRead, bind, Except.bind, Option.elim,
        luaPushData_loaded ha, readBytes_of_file hfind ha hfile, hcontent,
        ← luaBlock_faithful_iff]
      by_cases hperm : permits s.identity a s.identity.vfsCurrentUser (permRead >>> 6) = true
      · simp [hperm, eq_comm]
      · simp [hperm]

theorem readFaithful_unloaded (hdata : a.data = none) :
    ReadFaithful s path ↔ ∀ q text, a.hostPath = some q → zoraPerlPrefix.isPrefixOf q = true →
      s.host.openRead q = some text → PlainHostFile s a text := by
  have hnil : luaPushData s n = .ok (none, s) := by
    simp [luaPushData, nodeAt_of_valAt ha, hdata, bind, Except.bind]
  have hnothing : (∀ stale, luaLoad s stale n a = .ok none ∨ luaLoad s stale n a = .ok (some s)) →
      ReadFaithful s path := by
    intro hload stale
    refine ⟨none, s, ?_, by simp⟩
    rw [luaVmVfsRead_file hbegins hfind ha hfile]
    rcases hload stale with hload | hload
    · rw [hload]
      rfl
    · rw [hload]
      exact hnil
  cases hq : a.hostPath with
  | none => exact iff_of_true (hnothing fun _ => .inr (by simp [luaLoad, hdata, hq])) (by simp)
  | some q =>
    by_cases hperl : zoraPerlPrefix.isPrefixOf q = true
    · cases hopen : s.host.openRead q with
      | none =>
        refine iff_of_true (hnothing fun _ => .inr (by simp [luaLoad, hdata, hq, hperl, hopen])) ?_
        rintro q' text hq' _ hopen'
        obtain rfl := Option.some.inj hq'
        rw [hopen] at hopen'
        cases hopen'
      | some text =>
        rw [readFaithful_host hbegins hfind ha hfile hdata hq hperl hopen]
        constructor
        · rintro hplain q' text' hq' _ hopen'
          obtain rfl := Option.some.inj hq'
          obtain rfl := Option.some.inj (hopen.symm.trans hopen')
          exact hplain
        · intro h
          exact h q text rfl hperl hopen
    · refine iff_of_true (hnothing fun _ => .inl (by simp [luaLoad, hdata, hq, hperl])) ?_
      rintro q' text hq' hperl'
      obtain rfl := Option.some.inj hq'
      exact absurd hperl' hperl

end File

theorem readFaithful_iff (h : Consistent s) : ReadFaithful s path ↔ ReadGuarded s path := by
  cases hbegins : persistentPrefix.isPrefixOf path with
  | false =>
    refine iff_of_true (fun stale => ⟨none, s, ?_, by simp⟩) (.inl hbegins)
    rw [luaVmVfsRead, hbegins]
    rfl
  | true =>
    rw [ReadGuarded, hbegins, or_iff_right Bool.false_ne_true.symm]
    by_cases hlive : s.nodes.live s.root = true
    · have hs := h hlive
      rw [and_iff_right hlive]
      cases hwalk : Forest.walk Attr.name s.nodes s.root (pathComponents path) with
      | none =>
        have hfind : vfsFindNode s path = .ok none := by rw [vfsFindNode_of_live hlive, hwalk]
        refine iff_of_true (fun stale => ⟨none, s, ?_, by simp⟩) (by simp [hfind])
        rw [luaVmVfsRead, hbegins, hfind]
        rfl
      | some n =>
        have hfind : vfsFindNode s path = .ok (some n) := by rw [vfsFindNode_of_live hlive, hwalk]
        obtain ⟨a, ha⟩ := Forest.live_iff_valAt.mp (hs.tree.live_walk hlive hwalk)
        have hone : (∀ m b, vfsFindNode s path = .ok (some m) → Forest.valAt s.nodes m = some b →
            b.isDirectory = false → Readable s b) ↔ (a.isDirectory = false → Readable s a) := by
          refine ⟨fun hall => hall n a hfind ha, fun hthis m b hm hb => ?_⟩
          obtain rfl := Option.some.inj (Except.ok.inj (hfind.symm.trans hm))
          obtain rfl := Option.some.inj (ha.symm.trans hb)
          exact hthis
        rw [hone]
        cases hdir : a.isDirectory with
        | true =>
          refine iff_of_true (fun stale => ⟨none, s, ?_, by simp⟩) (by simp)
          simp [luaVmVfsRead, hbegins, hfind, nodeAt_of_valAt ha, hdir, bind, Except.bind]
        | false =>
          rw [Readable]
          cases hdata : a.data with
          | some p => simpa using readFaithful_stored hs hbegins hfind ha hdir hdata
          | none => simpa using readFaithful_unloaded hbegins hfind ha hdir hdata
    · refine iff_of_false (fun hread => ?_) (fun hguard => hlive hguard.1)
      obtain ⟨_, _, hcall, _⟩ := hread fun _ => 0
      simp [luaVmVfsRead, hbegins, vfsFindNode, hlive, bind, Except.bind] at hcall

end Reading

section Writing

variable {dir name text : Bytes} {parent : Nat} {blocks : Heap Bytes}

theorem luaText_eq_iff : luaText content = content ↔ 0 ∉ content := text_eq_self_iff

theorem writeRefused_eq (h : writeRefused path content = true) :
    luaVmVfsWrite s path content = .ok (false, s) := if_pos h

theorem luaVmVfsWrite_missing (hrefused : writeRefused path content = false)
    (hsplit : splitPath path = .ok (dir, name)) (hdir : findDirectory s dir = .ok none) :
    luaVmVfsWrite s path content = .ok (false, s) := by
  have hcreate : vfsCreateFile s path = .ok (-1, s) := by
    simp [vfsCreateFile, hsplit, hdir, bind, Except.bind]
  rw [luaVmVfsWrite, if_neg (ne_true_of_eq_false hrefused), hcreate]
  rfl

section Made

variable (hrefused : writeRefused path content = false)
  (hsplit : splitPath path = .ok (dir, name)) (hdir : findDirectory s dir = .ok (some parent))

include hrefused hsplit hdir

theorem luaVmVfsWrite_unfound (hfind : vfsFindNode (made s parent name) path = .ok none) :
    luaVmVfsWrite s path content = .ok (false, made s parent name) := by
  have hcreate : vfsCreateFile s path = .ok (0, made s parent name) := by
    simp [vfsCreateFile, hsplit, hdir, bind, Except.bind, made]
  rw [luaVmVfsWrite, if_neg (ne_true_of_eq_false hrefused), hcreate]
  simp [hfind, bind, Except.bind]

theorem luaVmVfsWrite_found (hfind : vfsFindNode (made s parent name) path = .ok (some n))
    (ha : Forest.valAt (made s parent name).nodes n = some a)
    (hfree : freeData s.blocks a.data = .ok blocks) :
    luaVmVfsWrite s path content =
      .ok (true, loaded { made s parent name with blocks := blocks } n (luaText content)) := by
  have hcreate : vfsCreateFile s path = .ok (0, made s parent name) := by
    simp [vfsCreateFile, hsplit, hdir, bind, Except.bind, made]
  have hblocks : (made s parent name).blocks = s.blocks := by rw [made_eq]
  rw [luaVmVfsWrite, if_neg (ne_true_of_eq_false hrefused), hcreate]
  simp [hfind, nodeAt_of_valAt ha, hblocks, hfree, bind, Except.bind]

end Made

section Loaded

variable (s n text)

theorem find_loaded (q : Bytes) : vfsFindNode (loaded s n text) q = vfsFindNode s q := by
  simp only [vfsFindNode, loaded, updateNode, Forest.live_update]
  rw [Forest.walk_update (name_withData _ _)]

theorem denotes_loaded (names : List Bytes) (m : Nat) :
    Forest.Denotes Attr.name (loaded s n text).nodes (loaded s n text).root names m ↔
      Forest.Denotes Attr.name s.nodes s.root names m :=
  Forest.denotes_update (name_withData _ _)

theorem storedBytes_loaded (a : Attr) :
    storedBytes (loaded s n text) (withData (some s.blocks.size) text.length a) = some text := by
  simp [storedBytes, bytesAt, loaded, withData]

variable {s n text}

theorem yields_loaded (hfind : vfsFindNode s path = .ok (some n))
    (ha : Forest.valAt s.nodes n = some a) :
    yields (loaded s n text) path = some (n, some text) := by
  simp [yields, find_loaded, hfind, valAt_loaded ha, storedBytes_loaded]

theorem holds_loaded (hfind : vfsFindNode s path = .ok (some n))
    (ha : Forest.valAt s.nodes n = some a) :
    Holds (loaded s n text) path content ↔ text = content ∧
      ∀ m, Forest.Denotes Attr.name s.nodes s.root (pathComponents path) m → m = n := by
  have hdenotes : Forest.Denotes Attr.name s.nodes s.root (pathComponents path) n :=
    .of_walk (vfsFindNode_ok hfind).2
  simp only [Holds, denotes_loaded]
  constructor
  · rintro ⟨k, b, honly, hb, hbytes⟩
    obtain rfl := (honly n).mp hdenotes
    obtain rfl := Option.some.inj ((valAt_loaded ha text).symm.trans hb)
    rw [storedBytes_loaded] at hbytes
    exact ⟨Option.some.inj hbytes, fun m => (honly m).mp⟩
  · rintro ⟨rfl, honly⟩
    refine ⟨n, _, fun m => ⟨honly m, ?_⟩, valAt_loaded ha text, storedBytes_loaded s n text a⟩
    rintro rfl
    exact hdenotes

end Loaded

theorem writeConfined_of_call {answer : Bool} {t : VfsState}
    (hcall : luaVmVfsWrite s path content = .ok (answer, t)) :
    WriteConfined s path content ↔
      (yields s path ≠ none → yields t path ≠ yields s path →
        ∃ u, vfsWriteFile s path (.bytes content) content.length = .ok (0, u)) ∧
      (answer = true → Holds t path content) := by
  constructor
  · rintro ⟨answer', t', hcall', hrest⟩
    obtain ⟨rfl, rfl⟩ := Prod.mk.inj (Except.ok.inj (hcall.symm.trans hcall'))
    exact hrest
  · exact fun hrest => ⟨answer, t, hcall, hrest⟩

theorem writeConfined_refused (hcall : luaVmVfsWrite s path content = .ok (false, s)) :
    WriteConfined s path content :=
  (writeConfined_of_call hcall).mpr ⟨fun _ hne => absurd rfl hne, fun h => by cases h⟩

theorem vfsWriteFile_zero_iff (hs : Sound s.nodes s.blocks s.root)
    (hfind : vfsFindNode s path = .ok (some n)) (ha : Forest.valAt s.nodes n = some a) :
    (∃ t, vfsWriteFile s path (.bytes content) content.length = .ok (0, t)) ↔ mayWrite s a := by
  constructor
  · rintro ⟨t, hcall⟩
    rcases vfsWriteFile_cases hcall with ⟨hanswer, _⟩ | ⟨m, b, _, _, hm, hb, hfile, hperm, _⟩
    · cases hanswer
    · obtain rfl := Option.some.inj (Except.ok.inj (hfind.symm.trans hm))
      obtain rfl := Option.some.inj (ha.symm.trans hb)
      exact ⟨hfile, hperm⟩
  · rintro ⟨hfile, hperm⟩
    obtain ⟨blocks, hfree⟩ := hs.freeData_ok ha
    exact ⟨_, vfsWriteFile_eq hfind ha hfile hperm hfree (copyData_bytes blocks content)⟩

section Cases

variable (hs : Sound s.nodes s.blocks s.root) (hrefused : writeRefused path content = false)
  (hsplit : splitPath path = .ok (dir, name)) (hdir : findDirectory s dir = .ok (some parent))

include hsplit in
theorem namesEntry_iff_components : NamesEntry path ∧ path.length < 256 ↔
    pathComponents path = pathComponents dir ++ [name] := by
  rw [← createLocation_eq_iff]
  simp [createLocation, hsplit, bind, Except.bind, eq_comm]

include hs hsplit hdir

include hrefused in
theorem writeConfined_new (hentry : NamesEntry path ∧ path.length < 256) :
    WriteConfined s path content ↔ NewName s path content := by
  have hp := isDirectory_of_find hdir
  have hpath := (namesEntry_iff_components hsplit).mp hentry
  have hfind : vfsFindNode (made s parent name) path = .ok (some s.nodes.size) := by
    rw [find_made_in hs hp (name_of_split hsplit) hdir hpath, if_pos rfl]
  have hval : Forest.valAt (made s parent name).nodes s.nodes.size =
      some (vfsCreateFileNode s name) := by rw [valAt_made hp, if_pos rfl]
  have hfree : freeData s.blocks (vfsCreateFileNode s name).data = .ok s.blocks := rfl
  have hcall := luaVmVfsWrite_found hrefused hsplit hdir hfind hval hfree
  have hsame : { made s parent name with blocks := s.blocks } = made s parent name := by
    rw [made_eq]
  rw [hsame] at hcall
  rw [writeConfined_of_call hcall, holds_loaded hfind hval, luaText_eq_iff, NewName]
  have hfresh : ∀ m, Forest.Denotes Attr.name s.nodes s.root (pathComponents path) m →
      m ≠ s.nodes.size := fun m hm =>
    Nat.ne_of_lt (Forest.live_lt_size (hm.live hs.tree hs.tree.root_live))
  have hdenotes : ∀ m, Forest.Denotes Attr.name (made s parent name).nodes
      (made s parent name).root (pathComponents path) m ↔
        Forest.Denotes Attr.name s.nodes s.root (pathComponents path) m ∨
          (m = s.nodes.size ∧ ∃ pre, pathComponents path = pre ++ [(vfsCreateFileNode s name).name] ∧
            Forest.Denotes Attr.name s.nodes s.root pre parent) := by
    intro m
    rw [made_eq]
    exact hs.tree.denotes_link hp.live
  constructor
  · rintro ⟨_, hholds⟩
    obtain ⟨hzero, honly⟩ := hholds rfl
    exact ⟨hzero, fun m hm => hfresh m hm (honly m ((hdenotes m).mpr (.inl hm)))⟩
  · rintro ⟨hzero, hnone⟩
    have habsent : yields s path = none := by
      have hwalk : Forest.walk Attr.name s.nodes s.root (pathComponents path) = none :=
        Option.eq_none_iff_forall_not_mem.mpr fun m hm => hnone m (.of_walk hm)
      simp [yields, vfsFindNode_of_live hs.tree.root_live, hwalk]
    refine ⟨fun hsome => absurd habsent hsome, fun _ => ⟨hzero, fun m hm => ?_⟩⟩
    exact (((hdenotes m).mp hm).resolve_left (hnone m)).1

theorem find_made_elsewhere (hentry : ¬ (NamesEntry path ∧ path.length < 256)) :
    vfsFindNode (made s parent name) path = vfsFindNode s path := by
  have hp := isDirectory_of_find hdir
  obtain ⟨hlive, hwalk, _⟩ := findDirectory_ok_some hdir
  rcases pathComponents_split hsplit with ⟨shown, _, hq, _⟩ | hq
  · have hdiff : name ≠ shown := by
      rintro rfl
      exact hentry ((namesEntry_iff_components hsplit).mpr hq)
    rw [find_made_in hs hp (name_of_split hsplit) hdir hq, if_neg hdiff]
  · have hmade : (made s parent name).nodes.live (made s parent name).root = true :=
      (tree_made hs hp).root_live
    rw [vfsFindNode_of_live hmade, vfsFindNode_of_live hlive, hq, hwalk, made_eq]
    exact congrArg Except.ok (hs.tree.walk_link hp.live hwalk)

theorem denotes_made_elsewhere (hentry : ¬ (NamesEntry path ∧ path.length < 256)) (m : Nat) :
    Forest.Denotes Attr.name (made s parent name).nodes (made s parent name).root
        (pathComponents path) m ↔
      Forest.Denotes Attr.name s.nodes s.root (pathComponents path) m := by
  rw [made_eq]
  refine (hs.tree.denotes_link (isDirectory_of_find hdir).live).trans (or_iff_left ?_)
  rintro ⟨_, pre, hpath, hparent⟩
  have hname : (vfsCreateFileNode s name).name = name := clip_of_length_lt (name_of_split hsplit)
  have hwhere := hs.tree.path_unique hparent (.of_walk (findDirectory_ok_some hdir).2.1)
  rw [hname, hwhere] at hpath
  exact hentry ((namesEntry_iff_components hsplit).mpr hpath)

omit hs hsplit hdir in
theorem oldName_iff (hfind : vfsFindNode s path = .ok (some n))
    (ha : Forest.valAt s.nodes n = some a) : OldName s path content ↔ 0 ∉ content ∧
      (∀ m, Forest.Denotes Attr.name s.nodes s.root (pathComponents path) m → m = n) ∧
        (mayWrite s a ∨ storedBytes s a = some content) := by
  refine ⟨fun hall => hall n a hfind ha, fun hthis m b hm hb => ?_⟩
  obtain rfl := Option.some.inj (Except.ok.inj (hfind.symm.trans hm))
  obtain rfl := Option.some.inj (ha.symm.trans hb)
  exact hthis

include hrefused in
theorem writeConfined_old (hentry : ¬ (NamesEntry path ∧ path.length < 256)) :
    WriteConfined s path content ↔ OldName s path content := by
  have hp := isDirectory_of_find hdir
  have hlive := hs.tree.root_live
  have hmade := find_made_elsewhere hs hsplit hdir hentry
  cases hwalk : Forest.walk Attr.name s.nodes s.root (pathComponents path) with
  | none =>
    have hfind : vfsFindNode s path = .ok none := by rw [vfsFindNode_of_live hlive, hwalk]
    have hcall := luaVmVfsWrite_unfound hrefused hsplit hdir (hmade.trans hfind)
    refine iff_of_true ((writeConfined_of_call hcall).mpr ⟨?_, fun h => by cases h⟩) ?_
    · simp [yields, hfind]
    · simp [OldName, hfind]
  | some n =>
    have hfind : vfsFindNode s path = .ok (some n) := by rw [vfsFindNode_of_live hlive, hwalk]
    obtain ⟨a, ha⟩ := Forest.live_iff_valAt.mp (hs.tree.live_walk hlive hwalk)
    obtain ⟨blocks, hfree⟩ := hs.freeData_ok ha
    have hcall := luaVmVfsWrite_found hrefused hsplit hdir (hmade.trans hfind)
      (valAt_made_old hp name ha) hfree
    have hyields : yields s path = some (n, storedBytes s a) := by simp [yields, hfind, ha]
    have hdenotes := denotes_made_elsewhere hs hsplit hdir hentry
    have hfind' : vfsFindNode { made s parent name with blocks := blocks } path = .ok (some n) :=
      hmade.trans hfind
    have ha' : Forest.valAt { made s parent name with blocks := blocks }.nodes n = some a :=
      valAt_made_old hp name ha
    rw [writeConfined_of_call hcall, yields_loaded hfind' ha', holds_loaded hfind' ha', hyields,
      vfsWriteFile_zero_iff hs hfind ha, luaText_eq_iff]
    rw [oldName_iff hfind ha]
    simp only [hdenotes, true_implies, ne_eq, Option.some_ne_none, not_false_eq_true,
      Option.some.injEq, Prod.mk.injEq, true_and]
    constructor
    · rintro ⟨hwrite, hzero, honly⟩
      refine ⟨hzero, honly, ?_⟩
      by_contra hneither
      push Not at hneither
      refine hneither.1 (hwrite fun heq => hneither.2 ?_)
      rw [← heq, luaText_eq_iff.mpr hzero]
    · rintro ⟨hzero, honly, hmay⟩
      refine ⟨fun hne => hmay.resolve_right fun heq => hne ?_, hzero, honly⟩
      rw [heq, luaText_eq_iff.mpr hzero]

end Cases

theorem writeConfined_iff (h : Consistent s) :
    WriteConfined s path content ↔ WriteGuarded s path content := by
  cases hrefused : writeRefused path content with
  | true => exact iff_of_true (writeConfined_refused (writeRefused_eq hrefused)) (.inl hrefused)
  | false =>
    rw [WriteGuarded, hrefused, or_iff_right Bool.false_ne_true]
    have hruns : WriteConfined s path content → ∃ made, vfsCreateFile s path = .ok made := by
      rintro ⟨answer, t, hcall, _⟩
      rw [luaVmVfsWrite, if_neg (ne_true_of_eq_false hrefused)] at hcall
      obtain ⟨made, hmade, _⟩ := Outcome.bind_eq_ok.mp hcall
      exact ⟨made, hmade⟩
    have hparts : WriteConfined s path content →
        s.nodes.live s.root = true ∧ ∃ dir name, splitPath path = .ok (dir, name) := by
      intro hconfined
      obtain ⟨made, hmade⟩ := hruns hconfined
      obtain ⟨⟨dir, name⟩, hsplit, hrest⟩ := Outcome.bind_eq_ok.mp hmade
      obtain ⟨found, hfound, _⟩ := Outcome.bind_eq_ok.mp hrest
      obtain ⟨_, hfind, _⟩ := Outcome.bind_eq_ok.mp hfound
      exact ⟨(vfsFindNode_ok hfind).1, dir, name, hsplit⟩
    constructor
    · intro hconfined
      obtain ⟨hlive, dir, name, hsplit⟩ := hparts hconfined
      refine ⟨hlive, dir, name, hsplit, fun parent hdir => ⟨fun hentry => ?_, fun hentry => ?_⟩⟩
      · exact (writeConfined_new (h hlive) hrefused hsplit hdir hentry).mp hconfined
      · exact (writeConfined_old (h hlive) hrefused hsplit hdir hentry).mp hconfined
    · rintro ⟨hlive, dir, name, hsplit, hall⟩
      have hs := h hlive
      obtain ⟨found, hdir⟩ := findDirectory_total hs dir
      cases found with
      | none => exact writeConfined_refused (luaVmVfsWrite_missing hrefused hsplit hdir)
      | some parent =>
        by_cases hentry : NamesEntry path ∧ path.length < 256
        · exact (writeConfined_new hs hrefused hsplit hdir hentry).mpr ((hall parent hdir).1 hentry)
        · exact (writeConfined_old hs hrefused hsplit hdir hentry).mpr ((hall parent hdir).2 hentry)

end Writing

theorem within_authority_iff (h : ScriptReachable s) (path content : Bytes) :
    WithinAuthority s path content ↔ ReadGuarded s path ∧ WriteGuarded s path content :=
  and_congr (readFaithful_iff h.consistent) (writeConfined_iff h.consistent)

section Concrete

def scripted (calls : List ScriptCall) : VfsState :=
  (exec (guarded scriptStep fun _ _ => true) (booted (openHost [])) calls).getD (booted (openHost []))

theorem reachable_scripted {calls : List ScriptCall}
    (h : (exec (guarded scriptStep fun _ _ => true) (booted (openHost [])) calls).isSome = true) :
    ScriptReachable (scripted calls) := by
  have hinit : vfsInit junkNode (openHost []) 0 = .ok (booted (openHost [])) := rfl
  exact ⟨junkNode, openHost [], 0, booted (openHost []), calls, hinit,
    (Run.of_exec_isSome h).mono fun _ _ _ => trivial⟩

def oneNote : VfsState :=
  scripted [.vfs (.mkdir (str "/persistent")), .write (str "/persistent/note") (str "hi"),
    .read (fun _ => 0) (str "/persistent/note")]

theorem within_authority_second_note :
    WithinAuthority oneNote (str "/persistent/todo") (str "milk") := by
  have hreach : ScriptReachable oneNote := reachable_scripted (by decide +kernel)
  have hfind : vfsFindNode oneNote (str "/persistent/todo") = .ok none := by
    rw [vfsFindNode_of_live (by decide +kernel)]
    exact congrArg Except.ok (by decide +kernel)
  have hnone : Forest.denoted Attr.name oneNote.nodes oneNote.root
      (pathComponents (str "/persistent/todo")) = [] := by decide +kernel
  refine (within_authority_iff hreach _ _).mpr ⟨.inr ⟨by decide +kernel, ?_⟩,
    .inr ⟨by decide +kernel, str "/persistent", str "todo", rfl, fun parent _ => ⟨fun _ => ?_, ?_⟩⟩⟩
  · intro n a hn
    rw [hfind] at hn
    cases hn
  · refine ⟨by decide, fun m hm => ?_⟩
    rw [← Forest.mem_denoted, hnone] at hm
    cases hm
  · intro hentry
    exact absurd ⟨⟨111, rfl, by decide⟩, by decide⟩ hentry

def rootsNote : VfsState :=
  scripted [.vfs (.identify ⟨str "root", str "root", true⟩), .vfs (.mkdir (str "/persistent")),
    .vfs (.createFile (str "/persistent/f")), .vfs (.writeFile (str "/persistent/f") (str "top")),
    .vfs (.identify ⟨str "eve", str "users", false⟩)]

theorem script_shadows_file :
    ¬ ∀ (s : VfsState) (path content : Bytes), ScriptReachable s → WithinAuthority s path content := by
  intro hall
  obtain ⟨_, answer, s', hcall, hpermitted, _⟩ := hall rootsNote (str "/persistent/f") (str "hi")
    (reachable_scripted (by decide +kernel))
  have hfound : yields rootsNote (str "/persistent/f") ≠ none := by decide +kernel
  have hchanged : ((luaVmVfsWrite rootsNote (str "/persistent/f") (str "hi")).toOption.any fun x =>
      yields x.2 (str "/persistent/f") != yields rootsNote (str "/persistent/f")) = true := by
    decide +kernel
  have hdenied : ((vfsWriteFile rootsNote (str "/persistent/f") (.bytes (str "hi")) 2).toOption.any
      fun x => x.1 == 0) = false := by decide +kernel
  simp only [hcall, Except.toOption, Option.any_some, bne_iff_ne] at hchanged
  obtain ⟨t, hwrite⟩ := hpermitted hfound hchanged
  have hsize : (str "hi").length = 2 := rfl
  rw [hsize] at hwrite
  simp [hwrite, Except.toOption] at hdenied

end Concrete

end ZoraVM.Lua
