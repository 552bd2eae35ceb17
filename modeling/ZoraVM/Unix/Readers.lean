import ZoraVM.Unix.TextProc
import ZoraVM.Vfs.Cleanup
import ZoraVM.Vfs.ReadWrite

namespace ZoraVM.Unix

open Foundation Vfs

section Editor

def editorMaxLineLength : Nat := 1024

-- editor_create gives every editor room for a line.
structure Editor where
  lines : List Bytes
  maxLines : Nat
  filename : Bytes
  modified : Bool
  room : 0 < maxLines
  deriving DecidableEq, Repr

def editorLines (maxLines : Nat) : Nat → Bytes → List Bytes → Outcome (List Bytes × Bytes)
  | 0, text, lines => .ok (lines, text)
  | fuel + 1, text, lines =>
    let line := text.takeWhile fun c => c ≠ newline ∧ c ≠ 0
    match text.drop line.length with
    | [] => .error .bufferOverflow
    | c :: rest =>
      if c = 0 ∨ maxLines ≤ lines.length then .ok (lines, text)
      else editorLines maxLines fuel rest (lines ++ [clip editorMaxLineLength line])

def editorParse (maxLines : Nat) (text : Bytes) : Outcome (List Bytes) := do
  let (lines, rest) ← editorLines maxLines (text.length + 1) text []
  match rest with
  | [] => .error .bufferOverflow
  | c :: _ =>
    let lines :=
      if c ≠ 0 ∧ lines.length < maxLines then
        lines ++ [clip editorMaxLineLength (rest.takeWhile (· ≠ 0))]
      else lines
    .ok (if lines = [] then [[]] else lines)

def editorNamed (editor : Editor) (lines : List Bytes) (filename : Bytes) : Editor :=
  { editor with
    lines := if lines = [] then [[]] else lines
    filename := clip 256 filename
    modified := false }

def editorLoadFile (s : VfsState) (editor : Editor) (filename : Bytes) :
    Outcome (Editor × VfsState) := do
  match ← vfsReadFile s filename with
  | (some (some p, _), s) =>
    let text ← blockText s.blocks (some p)
    let lines ← editorParse editor.maxLines text
    let s ← release s (some p)
    .ok (editorNamed editor lines filename, s)
  | (_, s) => .ok (editorNamed editor editor.lines filename, s)

end Editor

-- What `test` prints as true or false, where it tests a file.
def testCommand (s : VfsState) (argv : List Bytes) : Outcome (Option Bool × VfsState) :=
  match argv with
  | _ :: option :: path :: _ =>
    if option = str "-f" then do
      match ← vfsReadFile s path with
      | (none, s) => .ok (some false, s)
      | (some (data, _), s) =>
        let s ← release s data
        .ok (some true, s)
    else if option = str "-d" then
      if path.getLast? = some slash then .ok (some true, s)
      else do
        match ← vfsReadFile s path with
        | (none, s) => .ok (some true, s)
        | (some (data, _), s) =>
          let s ← release s data
          .ok (some false, s)
    else .ok (none, s)
  | _ => .ok (none, s)

inductive ReaderCall where
  | sed (script : Bytes)
  | awk (script : Bytes)
  | grepExtended (pattern : Bytes) (lineNumbers ignoreCase invertMatch : Bool)
  | editorLoad (editor : Editor)
  | testFile
  | testDirectory
  deriving DecidableEq, Repr

-- The state in which the call returns, if it does within the fuel.
def runReader (fuel : Nat) (s : VfsState) (path : Bytes) : ReaderCall → Outcome (Option VfsState)
  | .sed script =>
    Option.map (fun r => r.2.2) <$> unixSed fuel s script (some path) none
  | .awk script => Option.map (fun r => r.2.2) <$> unixAwk fuel s script (some path)
  | .grepExtended pattern lineNumbers ignoreCase invertMatch =>
    Option.map (fun r => r.2.2) <$>
      unixGrepExtended fuel s pattern path lineNumbers ignoreCase invertMatch
  | .editorLoad editor => (fun r => some r.2) <$> editorLoadFile s editor path
  | .testFile => (fun r => some r.2) <$> testCommand s [str "test", str "-f", path]
  | .testDirectory => (fun r => some r.2) <$> testCommand s [str "test", str "-d", path]

-- The node keeps its block and its size, and the block keeps its bytes; a file that was not in
-- memory may have been loaded.
def Intact (s s' : VfsState) (n : Nat) : Prop :=
  ∀ a, Forest.valAt s.nodes n = some a → ∃ a', Forest.valAt s'.nodes n = some a' ∧
    match a.data with
    | some p => a'.data = some p ∧ a'.size = a.size ∧ s'.blocks.get p = s.blocks.get p
    | none =>
      ∀ p, a'.data = some p → s'.blocks.get p = (loadable s a).map (· ++ [0])

def readable (s : VfsState) (a : Attr) : Bool :=
  !a.isDirectory && permits s.identity a s.identity.vfsCurrentUser (permRead >>> 6) &&
    (a.data.isSome || (loadable s a).isSome)

def unread (s : VfsState) (path : Bytes) (a : Attr) (call : ReaderCall) : Prop :=
  readable s a = false ∨ call = .testDirectory ∧ path.getLast? = some slash

variable {s s' t u : VfsState} {path : Bytes} {n p size fuel : Nat} {a : Attr} {call : ReaderCall}

section Reading

variable (hfind : vfsFindNode s path = .ok (some n)) (ha : Forest.valAt s.nodes n = some a)

include hfind ha

theorem read_unreadable (hunread : readable s a = false) : vfsReadFile s path = .ok (none, s) := by
  cases hperm : permits s.identity a s.identity.vfsCurrentUser (permRead >>> 6) with
  | false => exact vfsReadFile_denied hfind ha hperm
  | true =>
    cases hdir : a.isDirectory with
    | true => simp [vfsReadFile, hfind, nodeAt_of_valAt ha, hdir, bind, Except.bind]
    | false =>
      simp only [readable, hdir, hperm, Bool.not_false, Bool.true_and, Bool.or_eq_false_iff,
        Option.isSome_eq_false_iff, Option.isNone_iff_eq_none] at hunread
      obtain ⟨hdata, hload⟩ := hunread
      rw [vfsReadFile_eq hfind ha hdir hperm, hdata]
      simp [hload]

theorem read_readable (hreadable : readable s a = true) :
    ∃ p size t, vfsReadFile s path = .ok (some (some p, size), t) ∧
      (a.data = some p ∧ t = s ∨
        a.data = none ∧ p = s.blocks.size ∧
          ∃ content, loadable s a = some content ∧ t = loaded s n content) := by
  simp only [readable, Bool.and_eq_true, Bool.not_eq_true', Bool.or_eq_true] at hreadable
  obtain ⟨⟨hdir, hperm⟩, hhas⟩ := hreadable
  rw [vfsReadFile_eq hfind ha hdir hperm]
  cases hdata : a.data with
  | some p => exact ⟨p, a.size, s, rfl, .inl ⟨by simp, rfl⟩⟩
  | none =>
    simp only [hdata, Option.isSome_none, Bool.false_eq_true, false_or] at hhas
    obtain ⟨content, hload⟩ := Option.isSome_iff_exists.mp hhas
    simp only [hload]
    exact ⟨s.blocks.size, content.length, loaded s n content, rfl,
      .inr ⟨by simp, rfl, content, rfl, rfl⟩⟩

end Reading

structure Released (t s' : VfsState) (p : Nat) : Prop where
  nodes : s'.nodes = t.nodes
  root : s'.root = t.root
  size : s'.blocks.size = t.blocks.size
  held : (t.blocks.get p).isSome = true
  gone : s'.blocks.get p = none

theorem released_release (hrelease : release t (some p) = .ok s') : Released t s' p := by
  obtain ⟨blocks, hfree, hdone⟩ := Outcome.bind_eq_ok.mp hrelease
  obtain rfl := Except.ok.inj hdone
  rw [freeData] at hfree
  split at hfree
  · next hlive =>
    obtain rfl := Except.ok.inj hfree
    exact ⟨rfl, rfl, Heap.size_free t.blocks p, hlive, Heap.get_free_self t.blocks p⟩
  · cases hfree

theorem Released.of_tokenised {text : Bytes} (hheld : (t.blocks.get p).isSome = true)
    (h : Released (tokenised t (some p) text) s' p) : Released t s' p :=
  ⟨h.nodes, h.root, h.size.trans (Heap.size_put t.blocks p text), hheld, h.gone⟩

theorem blockText_held {text : Bytes} (h : blockText t.blocks (some p) = .ok text) :
    (t.blocks.get p).isSome = true := by
  unfold blockText at h
  cases hget : t.blocks.get p with
  | none => simp [hget] at h
  | some b => rfl

theorem Released.not_intact (ha : Forest.valAt s.nodes n = some a)
    (hread : a.data = some p ∧ t = s ∨
      a.data = none ∧ p = s.blocks.size ∧
        ∃ content, loadable s a = some content ∧ t = loaded s n content)
    (h : Released t s' p) : ¬ Intact s s' n := by
  intro hintact
  obtain ⟨a', ha', hsame⟩ := hintact a ha
  rw [h.nodes] at ha'
  rcases hread with ⟨hdata, rfl⟩ | ⟨hdata, rfl, content, hload, rfl⟩
  · simp only [hdata] at hsame
    have hheld := h.held
    rw [← hsame.2.2, h.gone] at hheld
    cases hheld
  · simp only [hdata] at hsame
    rw [valAt_loaded ha] at ha'
    obtain rfl := Option.some.inj ha'
    have hbytes := hsame s.blocks.size rfl
    rw [h.gone, hload] at hbytes
    cases hbytes

theorem intact_refl (s : VfsState) (n : Nat) : Intact s s n := by
  intro b hb
  refine ⟨b, hb, ?_⟩
  cases hdata : b.data with
  | some p => exact ⟨rfl, rfl, rfl⟩
  | none =>
    intro p hp
    cases hp

section Clients

variable (hread : vfsReadFile s path = .ok (some (some p, size), t))

include hread

theorem readInput_read {sample : Bytes} {found : Option Input × VfsState}
    (h : readInput s (some path) sample = .ok found) :
    ∃ text, found = (some ⟨some p, text, size⟩, t) ∧ (t.blocks.get p).isSome = true := by
  obtain ⟨got, hgot, hrest⟩ := Outcome.bind_eq_ok.mp h
  obtain rfl := Except.ok.inj (hread.symm.trans hgot)
  obtain ⟨text, htext, hdone⟩ := Outcome.bind_eq_ok.mp hrest
  exact ⟨text, (Except.ok.inj hdone).symm, blockText_held htext⟩

theorem unixSed_releases {script output : Bytes} {code : Int}
    (h : unixSed fuel s script (some path) none = .ok (some (code, output, s'))) :
    Released t s' p := by
  obtain ⟨found, hinput, hrest⟩ := Outcome.bind_eq_ok.mp h
  obtain ⟨text, rfl, hheld⟩ := readInput_read hread hinput
  obtain ⟨sedEnd, hcommand, hrest⟩ := Outcome.bind_eq_ok.mp hrest
  cases sedEnd with
  | running => cases hrest
  | invalid =>
    obtain ⟨u, hrelease, hdone⟩ := Outcome.bind_eq_ok.mp hrest
    simp only [Except.ok.injEq, Option.some.injEq, Prod.mk.injEq] at hdone
    obtain ⟨rfl, rfl, rfl⟩ := hdone
    exact released_release hrelease
  | written output' text' =>
    obtain ⟨kept, hkept, hrest⟩ := Outcome.bind_eq_ok.mp hrest
    obtain rfl := Except.ok.inj hkept
    obtain ⟨u, hrelease, hdone⟩ := Outcome.bind_eq_ok.mp hrest
    simp only [Except.ok.injEq, Option.some.injEq, Prod.mk.injEq] at hdone
    obtain ⟨rfl, rfl, rfl⟩ := hdone
    exact (released_release hrelease).of_tokenised hheld

theorem unixAwk_releases {script : Bytes} {code : Int} {records : Nat}
    (h : unixAwk fuel s script (some path) = .ok (some (code, records, s'))) :
    Released t s' p := by
  obtain ⟨found, hinput, hrest⟩ := Outcome.bind_eq_ok.mp h
  obtain ⟨text, rfl, hheld⟩ := readInput_read hread hinput
  obtain ⟨ended, hloop, hrest⟩ := Outcome.bind_eq_ok.mp hrest
  cases ended with
  | none => cases hrest
  | some last =>
    obtain ⟨u, hrelease, hdone⟩ := Outcome.bind_eq_ok.mp hrest
    simp only [Except.ok.injEq, Option.some.injEq, Prod.mk.injEq] at hdone
    obtain ⟨rfl, rfl, rfl⟩ := hdone
    exact (released_release hrelease).of_tokenised hheld

theorem unixGrepExtended_releases {pattern : Bytes} {lineNumbers ignoreCase invertMatch : Bool}
    {code : Int} {printed : List (Option Nat × Bytes)}
    (h : unixGrepExtended fuel s pattern path lineNumbers ignoreCase invertMatch =
      .ok (some (code, printed, s'))) : Released t s' p := by
  obtain ⟨found, hinput, hrest⟩ := Outcome.bind_eq_ok.mp h
  obtain ⟨text, rfl, hheld⟩ := readInput_read hread hinput
  obtain ⟨ended, hloop, hrest⟩ := Outcome.bind_eq_ok.mp hrest
  cases ended with
  | none => cases hrest
  | some last =>
    obtain ⟨u, hrelease, hdone⟩ := Outcome.bind_eq_ok.mp hrest
    simp only [Except.ok.injEq, Option.some.injEq, Prod.mk.injEq] at hdone
    obtain ⟨rfl, rfl, rfl⟩ := hdone
    exact (released_release hrelease).of_tokenised hheld

theorem editorLoadFile_releases {editor : Editor} {loadedEditor : Editor}
    (h : editorLoadFile s editor path = .ok (loadedEditor, s')) : Released t s' p := by
  obtain ⟨got, hgot, hrest⟩ := Outcome.bind_eq_ok.mp h
  obtain rfl := Except.ok.inj (hread.symm.trans hgot)
  obtain ⟨text, htext, hrest⟩ := Outcome.bind_eq_ok.mp hrest
  obtain ⟨lines, hlines, hrest⟩ := Outcome.bind_eq_ok.mp hrest
  obtain ⟨u, hrelease, hdone⟩ := Outcome.bind_eq_ok.mp hrest
  obtain ⟨rfl, rfl⟩ := Prod.mk.inj (Except.ok.inj hdone)
  exact released_release hrelease

theorem testFile_releases {answer : Option Bool}
    (h : testCommand s [str "test", str "-f", path] = .ok (answer, s')) : Released t s' p := by
  obtain ⟨got, hgot, hrest⟩ := Outcome.bind_eq_ok.mp h
  obtain rfl := Except.ok.inj (hread.symm.trans hgot)
  obtain ⟨u, hrelease, hdone⟩ := Outcome.bind_eq_ok.mp hrest
  obtain ⟨rfl, rfl⟩ := Prod.mk.inj (Except.ok.inj hdone)
  exact released_release hrelease

theorem testDirectory_releases {answer : Option Bool} (hslash : path.getLast? ≠ some slash)
    (h : testCommand s [str "test", str "-d", path] = .ok (answer, s')) : Released t s' p := by
  rw [testCommand, if_neg (by decide), if_pos rfl, if_neg hslash] at h
  obtain ⟨got, hgot, hrest⟩ := Outcome.bind_eq_ok.mp h
  obtain rfl := Except.ok.inj (hread.symm.trans hgot)
  obtain ⟨u, hrelease, hdone⟩ := Outcome.bind_eq_ok.mp hrest
  obtain ⟨rfl, rfl⟩ := Prod.mk.inj (Except.ok.inj hdone)
  exact released_release hrelease

theorem runReader_releases (hslash : call = .testDirectory → path.getLast? ≠ some slash)
    (h : runReader fuel s path call = .ok (some s')) : Released t s' p := by
  cases call with
  | sed script =>
    obtain ⟨_ | ⟨code, output, u⟩, hsed, hstate⟩ := Outcome.map_eq_ok.mp h
    · cases hstate
    · obtain rfl := Option.some.inj hstate
      exact unixSed_releases hread hsed
  | awk script =>
    obtain ⟨_ | ⟨code, records, u⟩, hawk, hstate⟩ := Outcome.map_eq_ok.mp h
    · cases hstate
    · obtain rfl := Option.some.inj hstate
      exact unixAwk_releases hread hawk
  | grepExtended pattern lineNumbers ignoreCase invertMatch =>
    obtain ⟨_ | ⟨code, printed, u⟩, hgrep, hstate⟩ := Outcome.map_eq_ok.mp h
    · cases hstate
    · obtain rfl := Option.some.inj hstate
      exact unixGrepExtended_releases hread hgrep
  | editorLoad editor =>
    obtain ⟨⟨edited, u⟩, hload, hstate⟩ := Outcome.map_eq_ok.mp h
    obtain rfl := Option.some.inj hstate
    exact editorLoadFile_releases hread hload
  | testFile =>
    obtain ⟨⟨answer, u⟩, htest, hstate⟩ := Outcome.map_eq_ok.mp h
    obtain rfl := Option.some.inj hstate
    exact testFile_releases hread htest
  | testDirectory =>
    obtain ⟨⟨answer, u⟩, htest, hstate⟩ := Outcome.map_eq_ok.mp h
    obtain rfl := Option.some.inj hstate
    exact testDirectory_releases hread (hslash rfl) htest

end Clients

theorem runReader_unread (hread : vfsReadFile s path = .ok (none, s)) (fuel : Nat)
    (call : ReaderCall) : runReader fuel s path call = .ok (some s) := by
  cases call with
  | sed script =>
    simp [runReader, unixSed, readInput, hread, bind, Except.bind, Functor.map, Except.map]
  | awk script =>
    simp [runReader, unixAwk, readInput, hread, bind, Except.bind, Functor.map, Except.map]
  | grepExtended pattern lineNumbers ignoreCase invertMatch =>
    simp [runReader, unixGrepExtended, readInput, hread, bind, Except.bind, Functor.map, Except.map]
  | editorLoad editor =>
    simp [runReader, editorLoadFile, hread, bind, Except.bind, Functor.map, Except.map]
  | testFile => simp [runReader, testCommand, hread, bind, Except.bind, Functor.map, Except.map]
  | testDirectory =>
    by_cases hslash : path.getLast? = some slash
    · rw [runReader, testCommand, if_neg (by decide), if_pos rfl, if_pos hslash]
      rfl
    · rw [runReader, testCommand, if_neg (by decide), if_pos rfl, if_neg hslash, hread]
      rfl

section Returning

theorem testFile_returns (hread : vfsReadFile s path = .ok (some (some p, size), t))
    (hheld : (t.blocks.get p).isSome = true) :
    testCommand s [str "test", str "-f", path] =
      .ok (some true, { t with blocks := t.blocks.free p }) := by
  simp [testCommand, hread, release_held hheld, bind, Except.bind]

theorem unixGrepExtended_returns {text : Bytes}
    (hread : vfsReadFile s path = .ok (some (some p, size), t))
    (hblock : t.blocks.get p = some text) (hzero : 0 ∈ text) (hfuel : text.length + 1 < fuel)
    (pattern : Bytes) (lineNumbers ignoreCase invertMatch : Bool) :
    ∃ printed s', unixGrepExtended fuel s pattern path lineNumbers ignoreCase invertMatch =
      .ok (some (0, printed, s')) := by
  obtain ⟨st, t', hloop⟩ : ∃ st t', forTokens [newline] (fun _ => true)
      (grepLine pattern lineNumbers ignoreCase invertMatch) fuel (1, []) text =
        .ok (some (st, t')) :=
    forTokens_returns (by decide) (fun _ _ _ => ⟨_, rfl⟩) (1, []) hzero hfuel
  refine ⟨st.2, { t with blocks := (t.blocks.put p t'.text).free p }, ?_⟩
  simp only [unixGrepExtended, readInput_text hread hblock, bind, Except.bind, hloop,
    release_tokenised hblock]

theorem testFile_loses_held (hfind : vfsFindNode s path = .ok (some n))
    (ha : Forest.valAt s.nodes n = some a) (hreadable : readable s a = true)
    (hdata : a.data = some p) (hheld : (s.blocks.get p).isSome = true) :
    ∃ s', runReader fuel s path .testFile = .ok (some s') ∧ ¬ Intact s s' n := by
  obtain ⟨q, size, t, hread, hfrom⟩ := read_readable hfind ha hreadable
  rcases hfrom with ⟨hq, rfl⟩ | ⟨hnone, _⟩
  · obtain rfl : p = q := Option.some.inj (hdata.symm.trans hq)
    have hrun : runReader fuel t path .testFile =
        .ok (some { t with blocks := t.blocks.free p }) := by
      rw [runReader, testFile_returns hread hheld]
      rfl
    refine ⟨_, hrun, ?_⟩
    exact (runReader_releases hread (by simp) hrun).not_intact ha (.inl ⟨hdata, rfl⟩)
  · rw [hdata] at hnone
    cases hnone

theorem grepExtended_loses_loaded {content : Bytes} (hfind : vfsFindNode s path = .ok (some n))
    (ha : Forest.valAt s.nodes n = some a) (hreadable : readable s a = true)
    (hdata : a.data = none) (hload : loadable s a = some content)
    (hfuel : content.length + 2 < fuel) (pattern : Bytes)
    (lineNumbers ignoreCase invertMatch : Bool) :
    ∃ s', runReader fuel s path (.grepExtended pattern lineNumbers ignoreCase invertMatch) =
      .ok (some s') ∧ ¬ Intact s s' n := by
  obtain ⟨q, size, t, hread, hfrom⟩ := read_readable hfind ha hreadable
  rcases hfrom with ⟨hsome, _⟩ | ⟨hnone, rfl, content', hload', rfl⟩
  · rw [hdata] at hsome
    cases hsome
  · obtain rfl : content = content' := Option.some.inj (hload.symm.trans hload')
    have hblock : (loaded s n content).blocks.get s.blocks.size = some (content ++ [0]) :=
      Heap.get_alloc_self s.blocks (content ++ [0])
    obtain ⟨printed, s', hgrep⟩ := unixGrepExtended_returns hread hblock (by simp)
      (by simpa using hfuel) pattern lineNumbers ignoreCase invertMatch
    have hrun : runReader fuel s path
        (.grepExtended pattern lineNumbers ignoreCase invertMatch) = .ok (some s') := by
      rw [runReader, hgrep]
      rfl
    refine ⟨s', hrun, ?_⟩
    exact (runReader_releases hread (by simp) hrun).not_intact ha
      (.inr ⟨hdata, rfl, content, hload, rfl⟩)

end Returning

theorem reader_intact_iff (hfind : vfsFindNode s path = .ok (some n))
    (ha : Forest.valAt s.nodes n = some a) :
    (unread s path a call → runReader fuel s path call = .ok (some s)) ∧
      ∀ s', runReader fuel s path call = .ok (some s') →
        (Intact s s' n ↔ unread s path a call) := by
  have hunread : unread s path a call → runReader fuel s path call = .ok (some s) := by
    rintro (hunreadable | ⟨rfl, hslash⟩)
    · exact runReader_unread (read_unreadable hfind ha hunreadable) fuel call
    · rw [runReader, testCommand, if_neg (by decide), if_pos rfl, if_pos hslash]
      rfl
  refine ⟨hunread, fun s' hrun => ⟨fun hintact => ?_, fun h => ?_⟩⟩
  · by_contra hget
    obtain ⟨hreadable, hslash⟩ := not_or.mp hget
    obtain ⟨p, size, t, hread, hfrom⟩ := read_readable hfind ha (by simpa using hreadable)
    have hreleased : Released t s' p :=
      runReader_releases hread (fun hcall hend => hslash ⟨hcall, hend⟩) hrun
    exact hreleased.not_intact ha hfrom hintact
  · obtain rfl := Option.some.inj (Except.ok.inj ((hunread h).symm.trans hrun))
    exact intact_refl s n

def noteFile : VfsState :=
  ran (fun _ _ => true) (openHost []) [.createFile (str "/f"), .writeFile (str "/f") (str "hi")]

def note : Attr :=
  ⟨str "f", false, false, none, 2, some 0, none, defaultFilePerms, str "guest", str "users", 0, 0⟩

theorem reachable_noteFile : Reachable noteFile := by
  have hreach := reachableBy_ran (fun _ _ => true) (openHost [])
    [.createFile (str "/f"), .writeFile (str "/f") (str "hi")] (by decide +kernel)
    (by decide +kernel)
  exact ⟨_, hreach.mono fun _ _ _ => trivial⟩

theorem find_noteFile : vfsFindNode noteFile (str "/f") = .ok (some 7) := by
  rw [vfsFindNode_of_live (by decide +kernel)]
  exact congrArg Except.ok (by decide +kernel)

theorem valAt_noteFile : Forest.valAt noteFile.nodes 7 = some note := by decide +kernel

theorem noteFile_tested : ∃ s', runReader 0 noteFile (str "/f") .testFile = .ok (some s') ∧
    ¬ Intact noteFile s' 7 :=
  testFile_loses_held find_noteFile valAt_noteFile (by decide +kernel) rfl (by decide +kernel)

theorem reader_intact_iff_note :
    ∃ s', runReader 0 noteFile (str "/f") .testFile = .ok (some s') ∧
      (Intact noteFile s' 7 ↔ unread noteFile (str "/f") note .testFile) := by
  obtain ⟨s', hrun, _⟩ := noteFile_tested
  exact ⟨s', hrun, (reader_intact_iff find_noteFile valAt_noteFile).2 s' hrun⟩

theorem test_releases_file :
    ¬ ∀ (s s' : VfsState) (path : Bytes) (n fuel : Nat) (call : ReaderCall), Reachable s →
      vfsFindNode s path = .ok (some n) → runReader fuel s path call = .ok (some s') →
      Intact s s' n := by
  intro hall
  obtain ⟨s', hrun, hlost⟩ := noteFile_tested
  exact hlost (hall noteFile s' (str "/f") 7 0 .testFile reachable_noteFile find_noteFile hrun)

section Sessions

inductive SessionCall where
  | vfs (call : VfsCall)
  | reader (path : Bytes) (call : ReaderCall)

def sessionStep (fuel : Nat) (s : VfsState) : SessionCall → Outcome (Option VfsState)
  | .vfs call => (fun answered => some answered.2) <$> vfsCall s call
  | .reader path call => runReader fuel s path call

-- `none` where a loop of some call still runs.
def runSession (fuel : Nat) : VfsState → List SessionCall → Outcome (Option VfsState)
  | s, [] => .ok (some s)
  | s, c :: calls => do
    match ← sessionStep fuel s c with
    | none => .ok none
    | some t => runSession fuel t calls

def TakesNone (fuel : Nat) (s : VfsState) (calls : List SessionCall) : Prop :=
  ∀ before path call after t n a, calls = before ++ .reader path call :: after →
    runSession fuel s before = .ok (some t) → vfsFindNode t path = .ok (some n) →
    Forest.valAt t.nodes n = some a → unread t path a call

variable {calls : List SessionCall} {c : SessionCall}

theorem runSession_cons :
    runSession fuel s (c :: calls) = .ok (some s') ↔
      ∃ t, sessionStep fuel s c = .ok (some t) ∧ runSession fuel t calls = .ok (some s') := by
  rw [runSession]
  constructor
  · intro h
    obtain ⟨_ | t, hstep, hrest⟩ := Outcome.bind_eq_ok.mp h
    · cases hrest
    · exact ⟨t, hstep, hrest⟩
  · rintro ⟨t, hstep, hrest⟩
    exact Outcome.bind_eq_ok.mpr ⟨some t, hstep, hrest⟩

theorem sessionStep_vfs {call : VfsCall} (h : sessionStep fuel s (.vfs call) = .ok (some t)) :
    ∃ r, vfsCall s call = .ok (r, t) := by
  obtain ⟨⟨r, u⟩, hcall, hsame⟩ := Outcome.map_eq_ok.mp h
  exact ⟨r, Option.some.inj hsame ▸ hcall⟩

theorem runReader_error {e : Fault} (hread : vfsReadFile s path = .error e)
    (hslash : ¬ (call = .testDirectory ∧ path.getLast? = some slash)) :
    runReader fuel s path call = .error e := by
  cases call with
  | sed script =>
    simp [runReader, unixSed, readInput, hread, bind, Except.bind, Functor.map, Except.map]
  | awk script =>
    simp [runReader, unixAwk, readInput, hread, bind, Except.bind, Functor.map, Except.map]
  | grepExtended pattern lineNumbers ignoreCase invertMatch =>
    simp [runReader, unixGrepExtended, readInput, hread, bind, Except.bind, Functor.map, Except.map]
  | editorLoad editor =>
    simp [runReader, editorLoadFile, hread, bind, Except.bind, Functor.map, Except.map]
  | testFile => simp [runReader, testCommand, hread, bind, Except.bind, Functor.map, Except.map]
  | testDirectory =>
    have hopen : path.getLast? ≠ some slash := fun hlast => hslash ⟨rfl, hlast⟩
    rw [runReader, testCommand, if_neg (by decide), if_pos rfl, if_neg hopen, hread]
    rfl

structure Took (s s' : VfsState) (path : Bytes) (call : ReaderCall) : Prop where
  file : ∃ n a, vfsFindNode s path = .ok (some n) ∧ Forest.valAt s.nodes n = some a ∧
    ¬ unread s path a call
  dangles : ∃ n p, DanglesAt s'.nodes s'.blocks n p
  shaped : Shaped s → Shaped s'

theorem taken_dangles (hfind : vfsFindNode s path = .ok (some n))
    (ha : Forest.valAt s.nodes n = some a) (htaken : ¬ unread s path a call)
    (h : runReader fuel s path call = .ok (some s')) : Took s s' path call := by
  obtain ⟨hreadable, hslash⟩ := not_or.mp htaken
  rw [Bool.not_eq_false] at hreadable
  obtain ⟨p, size, t, hread, hfrom⟩ := read_readable hfind ha hreadable
  have hreleased : Released t s' p :=
    runReader_releases hread (fun hcall hlast => hslash ⟨hcall, hlast⟩) h
  have hgone : s'.blocks.live p = false := by
    rw [Heap.live, hreleased.gone]
    rfl
  have hold : p < s'.blocks.size := by
    obtain ⟨b, hb⟩ := Option.isSome_iff_exists.mp hreleased.held
    exact hreleased.size.symm ▸ Heap.lt_size_of_get hb
  have hfile : a.isDirectory = false := by
    simp only [readable, Bool.and_eq_true, Bool.not_eq_true'] at hreadable
    exact hreadable.1.1
  have hnode : ∃ b, Forest.valAt t.nodes n = some b ∧ b.isDirectory = false ∧ b.data = some p := by
    rcases hfrom with ⟨hdata, rfl⟩ | ⟨_, rfl, content, _, rfl⟩
    · exact ⟨a, ha, hfile, hdata⟩
    · exact ⟨_, valAt_loaded ha content, hfile, rfl⟩
  refine ⟨⟨n, a, hfind, ha, htaken⟩, ⟨n, p, hreleased.nodes ▸ hnode, hgone, hold⟩, fun hshaped => ?_⟩
  have hread' := shaped_readFile hshaped hread
  unfold Shaped at hread' ⊢
  rw [hreleased.nodes, hreleased.root]
  exact hread'

theorem runReader_cases (h : runReader fuel s path call = .ok (some s')) :
    s' = s ∨ Took s s' path call := by
  by_cases hslash : call = .testDirectory ∧ path.getLast? = some slash
  · obtain ⟨rfl, hlast⟩ := hslash
    rw [runReader, testCommand, if_neg (by decide), if_pos rfl, if_pos hlast] at h
    exact .inl (Option.some.inj (Except.ok.inj h)).symm
  · cases hread : vfsReadFile s path with
    | error e =>
      rw [runReader_error hread hslash] at h
      cases h
    | ok got =>
      obtain ⟨found, t⟩ := got
      rcases vfsReadFile_cases hread with ⟨rfl, rfl⟩ | ⟨n, a, hfind, ha, _⟩
      · rw [runReader_unread hread] at h
        exact .inl (Option.some.inj (Except.ok.inj h)).symm
      · by_cases hunread : unread s path a call
        · rw [(reader_intact_iff hfind ha).1 hunread] at h
          exact .inl (Option.some.inj (Except.ok.inj h)).symm
        · exact .inr (taken_dangles hfind ha hunread h)

theorem session_dangles (hshaped : Shaped s) (hdangles : ∃ n p, DanglesAt s.nodes s.blocks n p)
    (h : runSession fuel s calls = .ok (some s')) :
    Shaped s' ∧ ∃ n p, DanglesAt s'.nodes s'.blocks n p := by
  induction calls generalizing s with
  | nil =>
    obtain rfl := Option.some.inj (Except.ok.inj h)
    exact ⟨hshaped, hdangles⟩
  | cons c calls ih =>
    obtain ⟨t, hstep, hrest⟩ := runSession_cons.mp h
    cases c with
    | vfs call =>
      obtain ⟨r, hcall⟩ := sessionStep_vfs hstep
      obtain ⟨n, p, hn⟩ := hdangles
      exact ih (shaped_call hshaped hcall) ⟨n, p, danglesAt_call hn hcall⟩ hrest
    | reader path call =>
      rcases runReader_cases hstep with rfl | htook
      · exact ih hshaped hdangles hrest
      · exact ih (htook.shaped hshaped) htook.dangles hrest

theorem takesNone_cons :
    TakesNone fuel s (c :: calls) ↔
      (∀ path call n a, c = .reader path call → vfsFindNode s path = .ok (some n) →
        Forest.valAt s.nodes n = some a → unread s path a call) ∧
      ∀ t, sessionStep fuel s c = .ok (some t) → TakesNone fuel t calls := by
  constructor
  · refine fun h => ⟨fun path call n a hc hfind ha => ?_, fun t hstep => ?_⟩
    · exact h [] path call calls s n a (by rw [hc, List.nil_append]) rfl hfind ha
    · intro before path call after u n a hcalls hrun
      exact h (c :: before) path call after u n a (by rw [hcalls, List.cons_append])
        (runSession_cons.mpr ⟨t, hstep, hrun⟩)
  · rintro ⟨hfirst, hlater⟩ before path call after u n a hcalls hrun hfind ha
    cases before with
    | nil =>
      obtain rfl := Option.some.inj (Except.ok.inj hrun)
      exact hfirst path call n a (List.cons.inj hcalls).1 hfind ha
    | cons c' before =>
      obtain ⟨rfl, rfl⟩ := List.cons.inj hcalls
      obtain ⟨t, hstep, hrest⟩ := runSession_cons.mp hrun
      exact hlater t hstep before path call after u n a rfl hrest hfind ha

theorem takesNone_step (hstep : sessionStep fuel s c = .ok (some t))
    (hfirst : ∀ path call n a, c = .reader path call → vfsFindNode s path = .ok (some n) →
      Forest.valAt s.nodes n = some a → unread s path a call) :
    TakesNone fuel s (c :: calls) ↔ TakesNone fuel t calls := by
  rw [takesNone_cons]
  constructor
  · exact fun h => h.2 t hstep
  · refine fun h => ⟨hfirst, fun u hu => ?_⟩
    obtain rfl := Option.some.inj (Except.ok.inj (hstep.symm.trans hu))
    exact h

theorem session_cases (h : Reachable s) (hrun : runSession fuel s calls = .ok (some s')) :
    (TakesNone fuel s calls ∧ Reachable s') ∨
      (¬ TakesNone fuel s calls ∧ Shaped s' ∧ ∃ n p, DanglesAt s'.nodes s'.blocks n p) := by
  induction calls generalizing s with
  | nil =>
    obtain rfl := Option.some.inj (Except.ok.inj hrun)
    refine .inl ⟨fun before path call after t n a hcalls => ?_, h⟩
    exact absurd hcalls (by simp)
  | cons c calls ih =>
    obtain ⟨t, hstep, hrest⟩ := runSession_cons.mp hrun
    cases c with
    | vfs call =>
      obtain ⟨r, hcall⟩ := sessionStep_vfs hstep
      obtain ⟨before, junk, host, clock, s₀, hinit, hbefore⟩ := h
      have ht : Reachable t := ⟨before ++ [call], junk, host, clock, s₀, hinit,
        hbefore.call trivial (by rw [vfsStep, hcall])⟩
      rw [takesNone_step hstep fun _ _ _ _ hc => by cases hc]
      exact ih ht hrest
    | reader path call =>
      by_cases hkeeps : ∀ n a, vfsFindNode s path = .ok (some n) →
          Forest.valAt s.nodes n = some a → unread s path a call
      · rcases runReader_cases hstep with rfl | htook
        · rw [takesNone_step hstep fun path' call' n a hc hfind ha => by
            obtain ⟨rfl, rfl⟩ := SessionCall.reader.inj hc
            exact hkeeps n a hfind ha]
          exact ih h hrest
        · obtain ⟨n, a, hfind, ha, htaken⟩ := htook.file
          exact absurd (hkeeps n a hfind ha) htaken
      · simp only [not_forall, exists_prop] at hkeeps
        obtain ⟨n, a, hfind, ha, htaken⟩ := hkeeps
        have htook := taken_dangles hfind ha htaken hstep
        obtain ⟨before, hbefore⟩ := h
        refine .inr ⟨fun hnone => ?_, ?_⟩
        · exact htaken ((takesNone_cons.mp hnone).1 path call n a rfl hfind ha)
        · exact session_dangles (htook.shaped hbefore.consistent.shaped) htook.dangles hrest

-- A session may mix the calls of the file system with the commands that free what they read; from
-- the first block that one of them takes, a pointer dangles.
theorem session_cleanup_iff {bound : Nat} (h : Reachable s)
    (hrun : runSession fuel s calls = .ok (some s')) (hbound : s'.nodes.size < bound) :
    ((∃ left, vfsCleanup bound s' = .ok left) ↔
      s'.nodes.live s'.root = true ∧ TakesNone fuel s calls) ∧
    (∀ nodes blocks, vfsCleanup bound s' = .ok (nodes, blocks) →
      (∀ n, nodes.live n = false) ∧ ∀ p, blocks.live p = false) ∧
    ∀ before after t, calls = before ++ after → runSession fuel s before = .ok (some t) →
      ¬ TakesNone fuel s before → ∃ n p, DanglesAt t.nodes t.blocks n p := by
  have hcases := session_cases h hrun
  have hclean : TakesNone fuel s calls → Reachable s' := fun hnone =>
    (hcases.resolve_right fun hright => hright.1 hnone).2
  have hnone : ∀ left, vfsCleanup bound s' = .ok left → TakesNone fuel s calls := by
    intro left hleft
    rcases hcases with ⟨hnone, _⟩ | ⟨_, hshaped, n, p, hdangles⟩
    · exact hnone
    · have hshape := hshaped (root_of_vfsCleanup hleft)
      exact absurd hleft (vfsCleanup_dangling hshape hdangles (Nat.le_of_lt hbound) left)
  refine ⟨⟨?_, ?_⟩, fun nodes blocks hleft => ?_, fun before after t _ hbefore htakes => ?_⟩
  · rintro ⟨left, hleft⟩
    exact ⟨root_of_vfsCleanup hleft, hnone left hleft⟩
  · rintro ⟨hlive, hkeeps⟩
    obtain ⟨nodes, blocks, hleft, _⟩ := (cleanup_frees_all_iff (hclean hkeeps) hbound).mpr hlive
    exact ⟨_, hleft⟩
  · have hreach := hclean (hnone _ hleft)
    obtain ⟨nodes', blocks', hleft', hnodes, hblocks⟩ :=
      (cleanup_frees_all_iff hreach hbound).mpr (root_of_vfsCleanup hleft)
    obtain ⟨rfl, rfl⟩ := Prod.mk.inj (Except.ok.inj (hleft'.symm.trans hleft))
    exact ⟨hnodes, hblocks⟩
  · exact ((session_cases h hbefore).resolve_left fun hleft => htakes hleft.1).2.2

theorem session_cleanup_iff_note :
    ∃ s', runSession 0 oneNote [.reader (str "/tmp/n") .testFile] = .ok (some s') ∧
      (∀ left, vfsCleanup (s'.nodes.size + 1) s' ≠ .ok left) ∧
      ∃ n p, DanglesAt s'.nodes s'.blocks n p := by
  have hfind : vfsFindNode oneNote (str "/tmp/n") = .ok (some 7) := by
    rw [vfsFindNode_of_live (by decide +kernel)]
    exact congrArg Except.ok (by decide +kernel)
  have ha : Forest.valAt oneNote.nodes 7 = some { note with name := str "n" } := by decide +kernel
  obtain ⟨s', htested, _⟩ := @testFile_loses_held oneNote (str "/tmp/n") 7 0 0 _ hfind ha
    (by decide +kernel) rfl (by decide +kernel)
  have hrun : runSession 0 oneNote [.reader (str "/tmp/n") .testFile] = .ok (some s') :=
    runSession_cons.mpr ⟨s', htested, rfl⟩
  have htakes : ¬ TakesNone 0 oneNote [.reader (str "/tmp/n") .testFile] := fun hnone => by
    have hunread := hnone [] (str "/tmp/n") .testFile [] oneNote 7 _ rfl rfl hfind ha
    exact absurd hunread (by unfold unread; decide +kernel)
  obtain ⟨hcleaned, -, hdangles⟩ := session_cleanup_iff reachable_oneNote hrun (Nat.lt_succ_self _)
  exact ⟨s', hrun, fun left hleft => htakes (hcleaned.mp ⟨left, hleft⟩).2,
    hdangles _ [] s' rfl hrun htakes⟩

end Sessions

end ZoraVM.Unix
