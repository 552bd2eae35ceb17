import ZoraVM.Foundation.Lines
import ZoraVM.Foundation.WordLoop
import ZoraVM.Unix.Readers
import ZoraVM.Unix.TextLines

namespace ZoraVM.Unix

open Foundation Vfs

section Statements

variable (s : VfsState) (path text : Bytes)

def GrepPrints (pattern : Bytes) (lineNumbers ignoreCase invertMatch : Bool)
    (printed : List (Option Nat × Bytes)) : Prop :=
  Settles (fun fuel => Option.map (fun r : Int × List (Option Nat × Bytes) × VfsState => (r.1, r.2.1)) <$>
    unixGrepExtended fuel s pattern path lineNumbers ignoreCase invertMatch) ((0 : Int), printed)

def shownFrom (lineNumbers : Bool) (selected : Bytes × Nat → Bool) (k : Nat) (lines : List Bytes) :
    List (Option Nat × Bytes) :=
  ((lines.zipIdx k).filter selected).map fun p => (if lineNumbers then some p.2 else none, p.1)

def PartsLines (pattern : Bytes) (lineNumbers ignoreCase : Bool) : Prop :=
  ∃ selected,
    GrepPrints s path pattern lineNumbers ignoreCase false
      (shownFrom lineNumbers selected 1 (linesOf newline text)) ∧
    GrepPrints s path pattern lineNumbers ignoreCase true
      (shownFrom lineNumbers (fun p => !selected p) 1 (linesOf newline text))

end Statements

section Loop

variable {pattern text : Bytes} {lineNumbers ignoreCase invertMatch : Bool} {fuel k : Nat}
variable {lines : List Bytes} {printed : List (Option Nat × Bytes)}

abbrev GrepState := Nat × List (Option Nat × Bytes)

def grepStep (pattern : Bytes) (lineNumbers ignoreCase invertMatch : Bool) (st : GrepState)
    (line : Bytes) : Option GrepState :=
  some (st.1 + 1, if grepMatches pattern line ignoreCase invertMatch then
    st.2 ++ [(if lineNumbers then some st.1 else none, line)] else st.2)

theorem grepLine_eq : grepLine pattern lineNumbers ignoreCase invertMatch = fun st line t =>
    .ok ((grepStep pattern lineNumbers ignoreCase invertMatch st line).map (·, t)) := rfl

def matching (pattern : Bytes) (ignoreCase invertMatch : Bool) (p : Bytes × Nat) : Bool :=
  grepMatches pattern p.1 ignoreCase invertMatch

theorem matching_inverted (pattern : Bytes) (ignoreCase : Bool) :
    matching pattern ignoreCase true = fun p => !matching pattern ignoreCase false p := by
  funext p
  simp [matching, grepMatches]

theorem shownFrom_cons (selected : Bytes × Nat → Bool) (k : Nat) (line : Bytes) (lines : List Bytes) :
    shownFrom lineNumbers selected k (line :: lines) =
      (if selected (line, k) then [(if lineNumbers then some k else none, line)] else []) ++
        shownFrom lineNumbers selected (k + 1) lines := by
  rw [shownFrom, List.zipIdx_cons, List.filter_cons, shownFrom]
  by_cases hkept : selected (line, k) = true
  · rw [if_pos hkept, if_pos hkept]
    rfl
  · rw [if_neg hkept, if_neg hkept]
    rfl

theorem grepLoop (lines : List Bytes) (k : Nat) (printed : List (Option Nat × Bytes)) :
    wordLoop (fun _ => true) (grepStep pattern lineNumbers ignoreCase invertMatch) lines (k, printed) =
      some (k + lines.length,
        printed ++ shownFrom lineNumbers (matching pattern ignoreCase invertMatch) k lines) := by
  induction lines generalizing k printed with
  | nil => simp [wordLoop, shownFrom]
  | cons line lines ih =>
    rw [wordLoop, if_pos rfl, grepStep, Option.bind_some, ih, shownFrom_cons, List.length_cons,
      Nat.add_right_comm k 1]
    have hkept : matching pattern ignoreCase invertMatch (line, k) =
        grepMatches pattern line ignoreCase invertMatch := rfl
    rw [hkept]
    by_cases hmatch : grepMatches pattern line ignoreCase invertMatch = true
    · rw [if_pos hmatch, if_pos hmatch, List.append_assoc]
      rfl
    · rw [if_neg hmatch, if_neg hmatch, List.nil_append]
      rfl

theorem length_shown (selected : Bytes × Nat → Bool) (k : Nat) (lines : List Bytes) :
    (shownFrom lineNumbers selected k lines).length +
      (shownFrom lineNumbers (fun p => !selected p) k lines).length = lines.length := by
  have hsum := List.length_eq_length_filter_add (l := lines.zipIdx k) selected
  simp only [shownFrom, List.length_map]
  rw [← hsum, List.length_zipIdx]

end Loop

section Reading

variable {s t : VfsState} {path text block pattern : Bytes} {p size : Nat}
variable {lineNumbers ignoreCase invertMatch : Bool} {printed : List (Option Nat × Bytes)}
variable (hread : vfsReadFile s path = .ok (some (some p, size), t)) (hblock : t.blocks.get p = some block)

include hread hblock

theorem unixGrepExtended_eq (fuel : Nat) :
    Option.map (fun r : Int × List (Option Nat × Bytes) × VfsState => (r.1, r.2.1)) <$>
        unixGrepExtended fuel s pattern path lineNumbers ignoreCase invertMatch =
      Option.map (fun ended : GrepState × Strtok => ((0 : Int), ended.1.2)) <$>
        forTokens [newline] (fun _ => true) (grepLine pattern lineNumbers ignoreCase invertMatch) fuel
          (1, []) block := by
  simp only [unixGrepExtended, readInput_text hread hblock, bind, Except.bind]
  cases forTokens [newline] (fun _ => true) (grepLine pattern lineNumbers ignoreCase invertMatch) fuel
    (1, []) block with
  | error e => rfl
  | ok ended =>
    cases ended with
    | none => rfl
    | some ended =>
      simp only [release_tokenised hblock]
      rfl

theorem zero_of_prints (h : GrepPrints s path pattern lineNumbers ignoreCase invertMatch printed) :
    0 ∈ block := by
  by_contra hzero
  obtain ⟨enough, hrun⟩ := h
  have hprints := hrun enough (Nat.le_refl enough)
  simp only [unixGrepExtended_eq hread hblock] at hprints
  obtain ⟨ended, hloop, hended⟩ := Outcome.map_eq_ok.mp hprints
  cases ended with
  | none => cases hended
  | some ended =>
    refine forTokens_unended hzero (fun _ => rfl) (fun st word u st' u' hstep => ?_) enough _ ended hloop
    exact (Prod.mk.inj (Option.some.inj (Except.ok.inj hstep))).2.symm

end Reading

section Law

variable {s t : VfsState} {path text pattern : Bytes} {p size : Nat}
variable {lineNumbers ignoreCase invertMatch : Bool}

theorem grep_prints (hread : vfsReadFile s path = .ok (some (some p, size), t))
    (hblock : t.blocks.get p = some (text ++ [0])) (hzero : 0 ∉ text) :
    GrepPrints s path pattern lineNumbers ignoreCase invertMatch (shownFrom lineNumbers
      (matching pattern ignoreCase invertMatch) 1 (words [newline] text)) := by
  refine ⟨(words [newline] text).length + 1, fun fuel hfuel => ?_⟩
  obtain ⟨u, hloop⟩ := forTokens_words (show 0 ∉ [newline] by decide) hzero hfuel (fun _ => true)
    (grepStep pattern lineNumbers ignoreCase invertMatch) (1, []) []
  simp only [unixGrepExtended_eq hread hblock, grepLine_eq, hloop, grepLoop]
  rfl

theorem terminated_of_parted (hreach : Reachable s) (hread : readBytes s path = some text)
    (hzero : 0 ∉ text) (h : PartsLines s path text pattern lineNumbers ignoreCase) :
    Terminated s path ∧ ∀ line ∈ linesOf newline text, line ≠ [] := by
  obtain ⟨p, t, rest, hcall, hblock, hrest⟩ := hreach.wellEnded.read hread
  obtain ⟨selected, hprints, hothers⟩ := h
  obtain rfl := (zero_behind_iff hzero hrest).mp (zero_of_prints hcall hblock hprints)
  refine ⟨(terminated_iff hcall hblock).mpr (by simp), length_words_eq_iff.mp ?_⟩
  -- The two searches print as many lines as strtok finds.
  have hprinted := (Prod.mk.inj (hprints.unique (grep_prints hcall hblock hzero))).2
  have hinverted := (Prod.mk.inj (hothers.unique (grep_prints hcall hblock hzero))).2
  rw [matching_inverted] at hinverted
  calc (words [newline] text).length = _ := (length_shown (matching pattern ignoreCase false) 1 _).symm
    _ = _ := by rw [← hprinted, ← hinverted]
    _ = (linesOf newline text).length := length_shown selected 1 _

theorem parted_of_terminated (hreach : Reachable s) (hread : readBytes s path = some text)
    (hzero : 0 ∉ text) (hterminated : Terminated s path)
    (hblank : ∀ line ∈ linesOf newline text, line ≠ []) :
    PartsLines s path text pattern lineNumbers ignoreCase := by
  obtain ⟨p, t, rest, hcall, hblock, hrest⟩ := hreach.wellEnded.read hread
  obtain rfl := (zero_behind_iff hzero hrest).mp ((terminated_iff hcall hblock).mp hterminated)
  refine ⟨matching pattern ignoreCase false, ?_, ?_⟩
  · rw [← words_eq_linesOf hblank]
    exact grep_prints hcall hblock hzero
  · rw [← words_eq_linesOf hblank, ← matching_inverted]
    exact grep_prints hcall hblock hzero

theorem terminated_of_unloaded {n : Nat} {a : Attr} (hfind : vfsFindNode s path = .ok (some n))
    (ha : Forest.valAt s.nodes n = some a) (hreadable : readable s a = true) (hdata : a.data = none) :
    Terminated s path := by
  obtain ⟨p, size, t, hcall, ⟨hheld, _⟩ | ⟨_, rfl, content, _, rfl⟩⟩ := read_readable hfind ha hreadable
  · rw [hdata] at hheld
    cases hheld
  · exact ⟨_, size, _, content ++ [0], hcall, Heap.get_alloc_self s.blocks (content ++ [0]), by simp⟩

theorem lines_parted_iff (s : VfsState) (path text pattern : Bytes) (lineNumbers ignoreCase : Bool)
    (hreach : Reachable s) (hread : readBytes s path = some text) (hzero : 0 ∉ text) :
    PartsLines s path text pattern lineNumbers ignoreCase ↔
      Terminated s path ∧ ∀ line ∈ linesOf newline text, line ≠ [] :=
  ⟨terminated_of_parted hreach hread hzero,
    fun ⟨hterminated, hblank⟩ => parted_of_terminated hreach hread hzero hterminated hblank⟩

end Law

section Concrete

def hostWithText (text : Bytes) : Host :=
  openHost [(Location.resolve (str "C:\\d"), .directory), (Location.resolve (str "C:\\d\\f"), .file text)]

def mountedText (text : Bytes) : VfsState :=
  ran (fun _ _ => true) (hostWithText text) [.mountPersistent (str "/m") (str "C:\\d")]

def mountedTextNode (size : Nat) : Attr :=
  ⟨str "f", false, false, none, size, none, some (str "C:\\d\\f"), defaultFilePerms, str "guest",
    str "users", 0, 0⟩

def fruits : Bytes := str "apple\nkiwi\n"

theorem reachable_fruits : Reachable (mountedText fruits) := by
  have hreach := reachableBy_ran (fun _ _ => true) (hostWithText fruits)
    [.mountPersistent (str "/m") (str "C:\\d")] (by decide +kernel) (by decide +kernel)
  exact ⟨_, hreach.mono fun _ _ _ => trivial⟩

theorem read_fruits : readBytes (mountedText fruits) (str "/m/f") = some fruits := by decide +kernel

theorem terminated_fruits : Terminated (mountedText fruits) (str "/m/f") := by
  have hfind : vfsFindNode (mountedText fruits) (str "/m/f") = .ok (some 8) := by
    rw [vfsFindNode_of_live (by decide +kernel)]
    exact congrArg Except.ok (by decide +kernel)
  have hnode : Forest.valAt (mountedText fruits).nodes 8 = some (mountedTextNode 11) := by
    decide +kernel
  exact terminated_of_unloaded hfind hnode (by decide +kernel) rfl

theorem fruits_parted : PartsLines (mountedText fruits) (str "/m/f") fruits (str "kiwi") true false :=
  (lines_parted_iff _ _ _ _ true false reachable_fruits read_fruits (by decide)).mpr
    ⟨terminated_fruits, by decide⟩

theorem blank_line_in_neither : ¬ ∃ pattern lineNumbers ignoreCase,
    PartsLines (mountedText (str "apple\n\nkiwi\n")) (str "/m/f") (str "apple\n\nkiwi\n") pattern
      lineNumbers ignoreCase := by
  have hreach := reachableBy_ran (fun _ _ => true) (hostWithText (str "apple\n\nkiwi\n"))
    [.mountPersistent (str "/m") (str "C:\\d")] (by decide +kernel) (by decide +kernel)
  rintro ⟨pattern, lineNumbers, ignoreCase, h⟩
  have hblank := (terminated_of_parted ⟨_, hreach.mono fun _ _ _ => trivial⟩ (by decide +kernel)
    (by decide) h).2
  exact hblank [] (by decide) rfl

end Concrete

end ZoraVM.Unix
