import Mathlib.Data.List.Destutter
import ZoraVM.Lua.Authority
import ZoraVM.Network.Numerals
import ZoraVM.Shell.SortCommand
import ZoraVM.Shell.TextFilters
import ZoraVM.Unix.WordCount

namespace ZoraVM.Shell

open Foundation Vfs Unix
open Network (decimalText decimal decimal_decimalText decimalText_ne_nil isDigit_of_mem_decimalText
  length_decimalText_le_iff isDigit_bounds intText padded)

section Source

variable {ω : Type}

structure WcFlags where
  lines : Bool
  words : Bool
  chars : Bool
  deriving DecidableEq, Repr

def noWcFlags : WcFlags := ⟨false, false, false⟩

def wcUsage : Bytes :=
  str "Usage: wc [OPTIONS] <filename>\nOptions:\n" ++
    str "  -l         count lines only\n  -w         count words only\n" ++
      str "  -c         count characters only\n"

def wcArguments (parsed : WcFlags × Option Bytes) : List Bytes → WcFlags × Option Bytes
  | [] => parsed
  | arg :: args =>
    wcArguments
      (if arg = str "-l" then ({ parsed.1 with lines := true }, parsed.2)
      else if arg = str "-w" then ({ parsed.1 with words := true }, parsed.2)
      else if arg = str "-c" then ({ parsed.1 with chars := true }, parsed.2)
      else (parsed.1, some arg)) args

-- The counters are ints.
def wcNext (st : CountState) (c : UInt8) : Checked CountState := do
  let _ ← checkedNat (st.next c).count.lines
  let _ ← checkedNat (st.next c).count.words
  .ok (st.next c)

def wcShown (flags : WcFlags) (filename : Bytes) (lines words chars : Int) : Bytes :=
  if flags.lines then intText lines ++ [newline]
  else if flags.words then intText words ++ [newline]
  else if flags.chars then intText chars ++ [newline]
  else
    padded 8 (intText lines) ++ (32 :: padded 8 (intText words) ++
      (32 :: padded 8 (intText chars) ++ (32 :: filename ++ [newline])))

def wcText (flags : WcFlags) (filename content : Bytes) : Checked Bytes := do
  let st ← content.foldlM wcNext ⟨⟨0, 0, 0⟩, false⟩
  .ok (wcShown flags filename st.count.lines st.count.words ((content.length : Int).bmod (2 ^ 32)))

def wcCommand (s : VfsState) (argv : List Bytes) : Checked (Bytes × VfsState) :=
  if argv.length < 2 then .ok (wcUsage, s)
  else
    match wcArguments (noWcFlags, none) argv.tail with
    | (_, none) => .ok (str "wc: no input file specified\n", s)
    | (flags, some filename) => do
      let fullPath := buildFullPath 512 s.currentDirectory filename
      match ← Checked.of (vfsReadFile s fullPath) with
      | (some (some p, size), s) => do
        let content ← Checked.of (copyFrom s.blocks (some p) 0 size)
        let printed ← wcText flags filename content
        .ok (printed, s)
      | (_, s) => .ok (str "wc: " ++ (fullPath ++ str ": No such file or directory\n"), s)

def plusLine (line : Bytes) : Bytes := 43 :: (line ++ [newline])

def minusLine (line : Bytes) : Bytes := 45 :: (line ++ [newline])

def diffLines : List Bytes → List Bytes → Bytes
  | [], [] => []
  | [], line :: lines => plusLine line ++ diffLines [] lines
  | line :: lines, [] => minusLine line ++ diffLines lines []
  | line :: lines, other :: others =>
    (if strcmp line other ≠ 0 then minusLine line ++ plusLine other else []) ++ diffLines lines others

def diffHeader (file1 file2 : Bytes) : Bytes :=
  str "--- " ++ (file1 ++ (str "\n+++ " ++ (file2 ++ [newline])))

def diffText (file1 file2 content1 content2 : Bytes) : Checked Bytes := do
  if content1 = content2 then .ok []
  else
    let lines1 ← splitLines content1 [] []
    let lines2 ← splitLines content2 [] []
    .ok (diffHeader file1 file2 ++ diffLines lines1 lines2)

def diffAbsent (path : Bytes) : Bytes := str "diff: " ++ (path ++ str ": No such file or directory\n")

def diffCommand (s : VfsState) (argv : List Bytes) : Checked (Bytes × VfsState) :=
  match argv with
  | _ :: file1 :: file2 :: _ => do
    let path1 := buildFullPath 512 s.currentDirectory file1
    let path2 := buildFullPath 512 s.currentDirectory file2
    match ← Checked.of (vfsReadFile s path1) with
    | (some (some p, size1), s) =>
      match ← Checked.of (vfsReadFile s path2) with
      | (some (some q, size2), s) =>
        let content1 ← Checked.of (copyFrom s.blocks (some p) 0 size1)
        let content2 ← Checked.of (copyFrom s.blocks (some q) 0 size2)
        let printed ← diffText file1 file2 content1 content2
        .ok (printed, s)
      | (_, s) => .ok (diffAbsent path2, s)
    | (_, s) => .ok (diffAbsent path1, s)
  | _ => .ok (str "Usage: diff <file1> <file2>\n", s)

structure ParsedCommand where
  args : List Bytes
  flags : List Bytes
  deriving DecidableEq, Repr

def parseCommandAdvancedFromArgs (cmd : ParsedCommand) : List Bytes → ParsedCommand
  | [] => cmd
  | arg :: argv =>
    if 255 ≤ cmd.args.length then cmd
    else if arg.head? = some 45 ∧ 1 < arg.length ∧ cmd.flags.length < 63 then
      parseCommandAdvancedFromArgs { cmd with flags := cmd.flags ++ [arg] } argv
    else parseCommandAdvancedFromArgs { cmd with args := cmd.args ++ [arg] } argv

def hasFlag (cmd : ParsedCommand) (flag : Bytes) : Bool :=
  cmd.flags.any fun given =>
    given == flag || (decide (2 < given.length) && given.head? == some 45 &&
      match flag with
      | [45, c] => given.tail.contains c
      | _ => false)

structure CatFlags where
  number : Bool
  numberNonblank : Bool
  squeezeBlank : Bool
  showEnds : Bool
  deriving DecidableEq, Repr

def catFlags (cmd : ParsedCommand) : CatFlags :=
  ⟨hasFlag cmd (str "-n"), hasFlag cmd (str "-b"), hasFlag cmd (str "-s"), hasFlag cmd (str "-E")⟩

def noCatFlags : CatFlags := ⟨false, false, false, false⟩

def lineEnd (flags : CatFlags) : Bytes := if flags.showEnds then [36, newline] else [newline]

def numberField (number : Nat) : Bytes := padded 6 (intText number) ++ [9]

-- line_length is an int.
def lineLength (line : Bytes) : Int := (line.length : Int).bmod (2 ^ 32)

def catLine (flags : CatFlags) (number : Nat) (line : Bytes) : Bytes :=
  (if flags.number || (flags.numberNonblank && lineLength line != 0) then numberField number else []) ++
    seenBytes line

def squeezes (flags : CatFlags) (blank : Bool) (line : Bytes) : Bool :=
  flags.squeezeBlank && lineLength line == 0 && blank

-- What stands between line_start and i is the line; line_number counts every line that is printed.
def catLoop (flags : CatFlags) : Nat → Bool → Bytes → Bytes → Checked Bytes
  | number, blank, line, [] => do
    if squeezes flags blank line then .ok []
    else
      let _ ← checkedNat (number + 1)
      .ok (catLine flags number line)
  | number, blank, line, c :: rest => do
    if c ≠ newline then catLoop flags number blank (line ++ [c]) rest
    else if squeezes flags blank line then catLoop flags number blank [] rest
    else
      let next ← checkedNat (number + 1)
      let printed ← catLoop flags next (lineLength line == 0) [] rest
      .ok (catLine flags number line ++ (lineEnd flags ++ printed))

def catText (flags : CatFlags) (content : Bytes) : Checked Bytes :=
  if flags = noCatFlags then .ok (content ++ closing content) else catLoop flags 1 false [] content

def terminalPrintPath (w : World ω) (path : Bytes) : Bytes :=
  if w.syntaxHighlight then ansi (str "4m") ++ (ansi (str "94m") ++ (path ++ ansi (str "0m")))
  else path

def terminalPrintString (w : World ω) (text : Bytes) : Bytes :=
  if w.syntaxHighlight then ansi (str "92m") ++ (text ++ ansi (str "0m")) else text

def quotedBy (quote : UInt8) (arg : Bytes) : Bool :=
  arg.head? == some quote && arg.getLast? == some quote

def terminalPrintArgument (w : World ω) (arg : Bytes) : Bytes :=
  if !w.syntaxHighlight then arg
  else if 47 ∈ arg ∨ 92 ∈ arg then terminalPrintPath w arg
  else if quotedBy 34 arg || quotedBy 39 arg then terminalPrintString w arg
  else ansi (str "97m") ++ (arg ++ ansi (str "0m"))

def catError (w : World ω) (path error : Bytes) : Bytes :=
  terminalPrintError (str "cat: ") ++ (terminalPrintPath w path ++ terminalPrintError error)

def catFile (w : World ω) (flags : CatFlags) (printed : Bytes × VfsState)
    (filename : Bytes) : Checked (Bytes × VfsState) := do
  let (front, s) := printed
  let path := fullPath s.currentDirectory filename
  match ← Checked.of (vfsFindNode s path) with
  | none => .ok (front ++ catError w path (str ": No such file or directory\n"), s)
  | some n =>
    let node ← Checked.of (nodeAt s n)
    if node.isDirectory then .ok (front ++ catError w path (str ": Is a directory\n"), s)
    else
      match ← Checked.of (vfsReadFile s path) with
      | (some (some p, size), s) =>
        if size = 0 then .ok (front ++ str "(empty file)\n", s)
        else
          let content ← Checked.of (copyFrom s.blocks (some p) 0 size)
          let shown ← catText flags content
          .ok (front ++ shown, s)
      | (_, s) => .ok (front ++ str "(empty file)\n", s)

def optionHelp (w : World ω) (option meaning : Bytes) : Bytes :=
  str "  " ++ (terminalPrintArgument w option ++ meaning)

def catHelp (w : World ω) : Bytes :=
  terminalPrintCommand w (str "cat") ++ (str " - display file contents\nUsage: " ++
    (terminalPrintCommand w (str "cat") ++ (str " [" ++
      (terminalPrintArgument w (str "OPTIONS") ++ (str "] " ++
        (terminalPrintPath w (str "FILE") ++ (str "...\n\nOptions:\n" ++
          (optionHelp w (str "-n") (str "         number all output lines\n") ++
          (optionHelp w (str "-b") (str "         number non-blank output lines\n") ++
          (optionHelp w (str "-s") (str "         suppress repeated empty lines\n") ++
          (optionHelp w (str "-E") (str "         display $ at end of each line\n") ++
          optionHelp w (str "--help") (str "    show this help message\n"))))))))))))

def catUsage (w : World ω) : Bytes :=
  terminalPrintError (str "Usage: ") ++
    (terminalPrintCommand w (str "cat") ++ str " [OPTIONS] FILE...\n")

def catCommand (w : World ω) (argv : List Bytes) : Checked (Bytes × VfsState) :=
  let cmd := parseCommandAdvancedFromArgs ⟨[], []⟩ argv
  if hasFlag cmd (str "-h") || hasFlag cmd (str "--help") then .ok (catHelp w, w.vfs)
  else if cmd.args.length < 2 then .ok (catUsage w, w.vfs)
  else cmd.args.tail.foldlM (catFile w (catFlags cmd)) ([], w.vfs)

end Source

section Counting

variable {s : VfsState} {text filename : Bytes} {n m : Nat} {flags : WcFlags}

theorem counted_le (h : text.length ≤ 2147483647) : (countOf text).lines ≤ 2147483647 ∧
    (countOf text).words ≤ 2147483647 :=
  ⟨List.count_le_length.trans h, (length_words_le whitespace text).trans h⟩

theorem wcLoop_eq (h : text.length ≤ 2147483647) :
    text.foldlM wcNext ⟨⟨0, 0, 0⟩, false⟩ = .ok (text.foldl CountState.next ⟨⟨0, 0, 0⟩, false⟩) := by
  induction text using List.reverseRecOn with
  | nil => rfl
  | append_singleton text c ih =>
    have hfront : text.length ≤ 2147483647 := by
      rw [List.length_append] at h
      omega
    have hcount := (counted (text ++ [c])).count
    rw [List.foldl_append, List.foldl_cons, List.foldl_nil] at hcount
    obtain ⟨hlines, hwords⟩ := counted_le h
    rw [← hcount] at hlines hwords
    rw [List.foldlM_append, ih hfront, List.foldl_append]
    simp only [List.foldlM_cons, List.foldlM_nil, List.foldl_cons, List.foldl_nil, bind, Except.bind,
      wcNext,
      checkedNat_ok hlines, checkedNat_ok hwords]
    rfl

theorem wcText_eq (flags : WcFlags) (filename : Bytes) (h : text.length ≤ 2147483647) :
    wcText flags filename text = .ok (wcShown flags filename (countOf text).lines (countOf text).words
      (countOf text).chars) := by
  have hint : ((text.length : Int)).bmod (2 ^ 32) = text.length :=
    Int.bmod_eq_of_le (by omega) (by omega)
  rw [wcText, wcLoop_eq h, hint]
  simp only [bind, Except.bind, (counted text).count]
  rfl

theorem wcCommand_eq (hreach : Reachable s)
    (hread : readBytes s (buildFullPath 512 s.currentDirectory filename) = some text) :
    ∃ t, ∀ argv flags, wcArguments (noWcFlags, none) argv.tail = (flags, some filename) →
      wcCommand s argv = (fun printed => (printed, t)) <$> wcText flags filename text := by
  obtain ⟨t, hshow⟩ := showFile_eq hreach hread
  refine ⟨t, fun argv flags hargs => ?_⟩
  have htail : argv.tail ≠ [] := fun hnil => by
    rw [hnil] at hargs
    cases (Prod.mk.inj hargs).2
  rw [wcCommand, if_neg (two_le_of_tail htail), hargs]
  exact hshow _ (wcText flags filename)

theorem intText_inj (h : intText n = intText m) : n = m := by
  have hnat : ∀ k : Nat, intText k = decimalText k := fun k => by
    have hk : ¬ (k : Int) < 0 := by omega
    rw [intText, if_neg hk, Int.toNat_natCast]
  rw [hnat, hnat] at h
  rw [← decimal_decimalText n, h, decimal_decimalText m]

def WcAgrees (s : VfsState) (filename text : Bytes) : Prop :=
  ∃ count, unixWordCount (text ++ [0]) = .ok count ∧
    ∀ argv flags, wcArguments (noWcFlags, none) argv.tail = (flags, some filename) →
      ∃ t, wcCommand s argv = .ok (wcShown flags filename count.lines count.words count.chars, t)

theorem wc_agrees_iff (hreach : Reachable s) (hname : filename ∉ [str "-l", str "-w", str "-c"])
    (hread : readBytes s (buildFullPath 512 s.currentDirectory filename) = some text)
    (hsize : text.length ≤ 2147483647) : WcAgrees s filename text ↔ 0 ∉ text := by
  obtain ⟨t, hcommand⟩ := wcCommand_eq hreach hread
  constructor
  · rintro ⟨count, hcount, hshown⟩ hzero
    obtain ⟨front, behind, rfl, hfront⟩ := List.eq_append_cons_of_mem hzero
    have hargs : wcArguments (noWcFlags, none) [str "wc", str "-c", filename].tail =
        ({ noWcFlags with chars := true }, some filename) := by
      simp only [List.mem_cons, not_or] at hname
      simp [wcArguments, hname, show str "-c" ≠ str "-l" by decide, show str "-c" ≠ str "-w" by decide]
    obtain ⟨u, hrun⟩ := hshown _ _ hargs
    rw [hcommand _ _ hargs, wcText_eq _ filename hsize] at hrun
    have hsame := List.append_cancel_right (Prod.mk.inj (Except.ok.inj hrun)).1
    rw [List.append_assoc, List.cons_append] at hcount
    obtain ⟨-, rfl⟩ := (unixWordCount_ok_iff hfront (behind ++ [0])).mp hcount
    have hlen : (front ++ 0 :: behind).length = front.length := intText_inj hsame
    rw [List.length_append, List.length_cons] at hlen
    omega
  · intro hzero
    refine ⟨countOf text, (unixWordCount_ok_iff hzero []).mpr ⟨hsize, rfl⟩, fun argv flags hargs => ⟨t, ?_⟩⟩
    rw [hcommand argv flags hargs, wcText_eq flags filename hsize]
    rfl

end Counting

section Comparing

variable {s : VfsState} {file1 file2 text text1 text2 : Bytes} {lines others : List Bytes}

theorem strcmp_eq_zero_iff (s t : Bytes) : strcmp s t = 0 ↔ s = t := by
  have hboth : strcmp s t = 0 ↔ byteKey s ≤ byteKey t ∧ byteKey t ≤ byteKey s := by
    rw [← strcmp_le_zero_iff, ← zero_le_strcmp_iff]
    omega
  have hkey : Function.Injective byteKey := List.map_injective_iff.mpr fun _ _ => UInt8.toNat_inj.mp
  rw [hboth, ← le_antisymm_iff, hkey.eq_iff]

theorem diffLines_eq_nil_iff (lines others : List Bytes) :
    diffLines lines others = [] ↔ lines = others := by
  fun_induction diffLines lines others with
  | case1 => exact iff_of_true rfl rfl
  | case2 line lines ih => simp [plusLine]
  | case3 line lines ih => simp [minusLine]
  | case4 line lines other others ih =>
    rw [List.append_eq_nil_iff, ih, List.cons.injEq, ← strcmp_eq_zero_iff line other]
    by_cases h : strcmp line other = 0 <;> simp [h, minusLine]

def diffSees (text : Bytes) : List Bytes :=
  ((text.splitOn newline).take 1000).map fun segment => segment.takeWhile (· ≠ 0)

theorem length_segment_le {segment : Bytes} (h : segment ∈ text.splitOn newline) :
    segment.length ≤ text.length := by
  have hjoined : [newline].intercalate (text.splitOn newline) = text :=
    List.intercalate_splitOn newline
  have hsub : ([newline].intercalate [segment]).length ≤
      ([newline].intercalate (text.splitOn newline)).length :=
    length_intercalate_le_of_sublist (List.singleton_sublist.mpr h)
  rwa [List.intercalate_singleton, hjoined] at hsub

theorem splitLines_seen (h : text.length < 2147483647) :
    splitLines text [] [] = .ok (diffSees text) := by
  have hcopied : ∀ segments : List Bytes, (∀ segment ∈ segments, segment.length < 2147483647) →
      segments.mapM copyLine = .ok (segments.map fun segment => segment.takeWhile (· ≠ 0)) := by
    intro segments hshort
    induction segments with
    | nil => rfl
    | cons segment segments ih =>
      have hlen := hshort segment List.mem_cons_self
      have hsame : segment.length % 2 ^ 32 = segment.length := Nat.mod_eq_of_lt (hlen.trans (by decide))
      have hcopy : copyLine segment = .ok (segment.takeWhile (· ≠ 0)) := by
        rw [copyLine, hsame, if_pos hlen, List.take_length]
      rw [List.mapM_cons, hcopy, ih fun l hl => hshort l (List.mem_cons_of_mem segment hl)]
      rfl
  have hshort : ∀ segment ∈ (text.splitOn newline).take 1000, segment.length < 2147483647 :=
    fun segment hin => (length_segment_le (List.mem_of_mem_take hin)).trans_lt h
  rw [splitLines_eq text [] [] (by decide), modifyHead_nil_append, List.length_nil, Nat.sub_zero,
    hcopied _ hshort]
  rfl

theorem bytesAt_alloc {blocks : Heap Bytes} {p : Nat} {block : Bytes}
    (hblock : blocks.get p = some block)
    (content : Bytes) (size : Nat) :
    bytesAt (blocks.alloc content) (some p) size = bytesAt blocks (some p) size := by
  rw [bytesAt, bytesAt, Heap.get_alloc_of_get hblock, hblock]

theorem readBytes_loaded {n : Nat} {a : Attr} {content path : Bytes} (hs : WellEnded s)
    (ha : Forest.valAt s.nodes n = some a) (hdata : a.data = none) (hload : loadable s a = some content)
    (hread : readBytes s path = some text) : readBytes (loaded s n content) path = some text := by
  have hcase := hread
  unfold readBytes at hcase
  split at hcase
  · next data size t hcall =>
    rcases vfsReadFile_cases hcall with ⟨hnone, -⟩ | ⟨k, b, hfind, hb, hfile, hperm, -⟩
    · cases hnone
    · have hfound : vfsFindNode (loaded s n content) path = .ok (some k) := by
        rw [Lua.find_loaded, hfind]
      rw [readBytes_eq hfind hb hfile hperm] at hread
      by_cases hk : k = n
      · subst hk
        obtain rfl := Option.some.inj (ha.symm.trans hb)
        rw [readBytes_eq hfound (valAt_loaded ha content) hfile hperm]
        rw [if_pos hdata, hload] at hread
        simpa [withData, bytesAt, loaded] using hread
      · have hval : Forest.valAt (loaded s n content).nodes k = some b := by
          simpa [loaded, updateNode, Forest.valAt_update, hk] using hb
        rw [readBytes_eq hfound hval hfile hperm]
        cases hstored : b.data with
        | none =>
          rw [if_pos hstored] at hread
          rw [if_pos rfl]
          exact hread
        | some p =>
          have hlive := (vfsFindNode_ok hfind).1
          obtain ⟨block, hblock, -⟩ := (hs.consistent hlive).stored hb hstored
          rw [hstored, if_neg (Option.some_ne_none p)] at hread
          rw [if_neg (Option.some_ne_none p), ← hread]
          exact congrArg some (bytesAt_alloc hblock _ _)
  · cases hcase

theorem readBytes_kept {t : VfsState} {path other : Bytes} {found : Option (Option Nat × Nat)}
    (hs : WellEnded s) (hcall : vfsReadFile s other = .ok (found, t))
    (hread : readBytes s path = some text) : readBytes t path = some text := by
  rcases vfsReadFile_cases hcall with ⟨-, rfl⟩ | ⟨n, a, -, ha, -, -, hload⟩
  · exact hread
  · rcases hload with ⟨_, -, -, rfl⟩ | ⟨hdata, content, hload, -, rfl⟩
    · exact hread
    · exact readBytes_loaded hs ha hdata hload hread

theorem copyFrom_kept {t : VfsState} {path : Bytes} {found : Option (Option Nat × Nat)} {p size : Nat}
    (hcall : vfsReadFile s path = .ok (found, t))
    (hcopy : copyFrom s.blocks (some p) 0 size = .ok text) :
    copyFrom t.blocks (some p) 0 size = .ok text := by
  cases hblock : s.blocks.get p with
  | none => simp [copyFrom, hblock] at hcopy
  | some block =>
    have hkept : t.blocks.get p = some block := by
      rcases vfsReadFile_cases hcall with ⟨-, rfl⟩ | ⟨n, a, -, -, -, -, hload⟩
      · exact hblock
      · rcases hload with ⟨_, -, -, rfl⟩ | ⟨-, content, -, -, rfl⟩
        · exact hblock
        · exact Heap.get_alloc_of_get hblock
    simpa [copyFrom, hblock, hkept] using hcopy

theorem diffCommand_eq (hreach : Reachable s)
    (hread1 : readBytes s (buildFullPath 512 s.currentDirectory file1) = some text1)
    (hread2 : readBytes s (buildFullPath 512 s.currentDirectory file2) = some text2) :
    ∃ t, diffCommand s [str "diff", file1, file2] =
      (fun printed => (printed, t)) <$> diffText file1 file2 text1 text2 := by
  have hs := hreach.wellEnded
  obtain ⟨p, t, hcall1, hcopy1⟩ := hs.read_copied hread1
  have ht : WellEnded t := by
    refine wellEnded_step (c := .readFile (buildFullPath 512 s.currentDirectory file1)) hs ?_
    rw [vfsStep, vfsCall, hcall1]
    rfl
  obtain ⟨q, u, hcall2, hcopy2⟩ := ht.read_copied (readBytes_kept hs hcall1 hread2)
  refine ⟨u, ?_⟩
  rw [diffCommand]
  simp only [hcall1, hcall2, Checked.of, Except.mapError, bind, Except.bind,
    copyFrom_kept hcall2 hcopy1, hcopy2]
  rfl

def DiffTells (s : VfsState) (file1 file2 text1 text2 : Bytes) : Prop :=
  ∃ printed t, diffCommand s [str "diff", file1, file2] = .ok (printed, t) ∧
    (text1 = text2 → printed = []) ∧
      (text1 ≠ text2 → ∃ body, body ≠ [] ∧ printed = diffHeader file1 file2 ++ body)

theorem diff_tells_iff (hreach : Reachable s)
    (hread1 : readBytes s (buildFullPath 512 s.currentDirectory file1) = some text1)
    (hread2 : readBytes s (buildFullPath 512 s.currentDirectory file2) = some text2)
    (hsize1 : text1.length < 2147483647) (hsize2 : text2.length < 2147483647) :
    DiffTells s file1 file2 text1 text2 ↔ text1 = text2 ∨
      ((text1.splitOn newline).take 1000).map (fun segment => segment.takeWhile (· ≠ 0)) ≠
        ((text2.splitOn newline).take 1000).map (fun segment => segment.takeWhile (· ≠ 0)) := by
  obtain ⟨t, hcommand⟩ := diffCommand_eq hreach hread1 hread2
  have hshown : diffText file1 file2 text1 text2 = if text1 = text2 then .ok []
      else .ok (diffHeader file1 file2 ++ diffLines (diffSees text1) (diffSees text2)) := by
    rw [diffText, splitLines_seen hsize1, splitLines_seen hsize2]
    rfl
  rw [hshown] at hcommand
  by_cases hsame : text1 = text2
  · rw [if_pos hsame] at hcommand
    exact iff_of_true ⟨[], t, hcommand, fun _ => rfl, fun h => absurd hsame h⟩ (.inl hsame)
  · rw [if_neg hsame] at hcommand
    have hlines := diffLines_eq_nil_iff (diffSees text1) (diffSees text2)
    constructor
    · rintro ⟨printed, u, hrun, -, hdiffer⟩
      rw [hcommand] at hrun
      obtain ⟨body, hbody, hprinted⟩ := hdiffer hsame
      rw [← (Prod.mk.inj (Except.ok.inj hrun)).1] at hprinted
      refine .inr fun hseen => hbody ?_
      rw [← List.append_cancel_left hprinted]
      exact hlines.mpr hseen
    · rintro (h | hseen)
      · exact absurd h hsame
      · exact ⟨_, t, hcommand, fun h => absurd h hsame, fun _ => ⟨_, fun h => hseen (hlines.mp h), rfl⟩⟩

end Comparing

section Numbering

variable {flags : CatFlags} {line rest text : Bytes} {ls : List Bytes} {counts : Bytes → Bool}
variable {n m : Nat} {blank : Bool}

def numbersLine (flags : CatFlags) (line : Bytes) : Bool :=
  flags.number || (flags.numberNonblank && line != [])

def shownLine (flags : CatFlags) (number : Nat) (line : Bytes) : Bytes :=
  (if numbersLine flags line then numberField number else []) ++ line

def numberedLines (flags : CatFlags) (counts : Bytes → Bool) : Nat → List Bytes → List Bytes
  | _, [] => []
  | number, line :: ls =>
    shownLine flags number line ::
      numberedLines flags counts (if counts line then number + 1 else number) ls

def squeezedLines (flags : CatFlags) (ls : List Bytes) : List Bytes :=
  if flags.squeezeBlank then ls.destutter fun a b => a ≠ [] ∨ b ≠ [] else ls

def joinedLines (flags : CatFlags) (ended : Bool) (shown : List Bytes) : Bytes :=
  if ended then shown.flatMap (· ++ lineEnd flags) else (lineEnd flags).intercalate shown

def endsLine (text : Bytes) : Bool := text.getLast? == some newline

def linesShown (flags : CatFlags) (counts : Bytes → Bool) (text : Bytes) : List Bytes :=
  numberedLines flags counts 1 (squeezedLines flags (linesOf newline text))

-- What the help text says of the options.
def promisedText (flags : CatFlags) (text : Bytes) : Bytes :=
  joinedLines flags (endsLine text) (linesShown flags (numbersLine flags) text)

def keptLines (flags : CatFlags) : Bool → List Bytes → List Bytes
  | _, [] => []
  | blank, line :: ls =>
    if flags.squeezeBlank && line == [] && blank then keptLines flags blank ls
    else line :: keptLines flags (line == []) ls

def blankBehind (blank : Bool) (ls : List Bytes) : Bool := (ls.getLast?.map (· == [])).getD blank

theorem kept_destutter (hsqueeze : flags.squeezeBlank = true) (a : Bytes) :
    a :: keptLines flags (a == []) ls = ls.destutter' (fun a b => a ≠ [] ∨ b ≠ []) a := by
  induction ls generalizing a with
  | nil => rfl
  | cons line ls ih =>
    by_cases hdrop : line = [] ∧ a = []
    · obtain ⟨rfl, rfl⟩ := hdrop
      rw [List.destutter'_cons_neg _ (by simp), ← ih, keptLines, if_pos (by simp [hsqueeze])]
    · have hkeep : a ≠ [] ∨ line ≠ [] := by
        by_cases ha : a = []
        · exact .inr fun hline => hdrop ⟨hline, ha⟩
        · exact .inl ha
      have hnot : ¬ (flags.squeezeBlank && line == [] && a == []) = true := by
        simpa [hsqueeze] using fun h ha => hdrop ⟨h, ha⟩
      have hstep : (line :: ls).destutter' (fun a b => a ≠ [] ∨ b ≠ []) a =
          a :: ls.destutter' (fun a b => a ≠ [] ∨ b ≠ []) line := List.destutter'_cons_pos ls hkeep
      rw [hstep, ← ih, keptLines, if_neg hnot]

theorem kept_eq (flags : CatFlags) (ls : List Bytes) :
    keptLines flags false ls = squeezedLines flags ls := by
  by_cases hsqueeze : flags.squeezeBlank = true
  · rw [squeezedLines, if_pos hsqueeze]
    cases ls with
    | nil => rfl
    | cons line ls => rw [List.destutter_cons', ← kept_destutter hsqueeze, keptLines, if_neg (by simp)]
  · have hall : ∀ blank, keptLines flags blank ls = ls := by
      induction ls with
      | nil => exact fun _ => rfl
      | cons line ls ih =>
        intro blank
        rw [keptLines, if_neg (by simp [hsqueeze]), ih]
    rw [squeezedLines, if_neg hsqueeze, hall]

theorem blankBehind_cons (blank : Bool) (line : Bytes) (ls : List Bytes) :
    blankBehind blank (line :: ls) = blankBehind (line == []) ls := by
  cases ls with
  | nil => rfl
  | cons second ls =>
    rw [blankBehind, blankBehind, List.getLast?_cons_cons,
      List.getLast?_eq_some_getLast (List.cons_ne_nil second ls)]
    rfl

theorem kept_concat (flags : CatFlags) (blank : Bool) (ls : List Bytes) (line : Bytes) :
    keptLines flags blank (ls ++ [line]) = keptLines flags blank ls ++
      if flags.squeezeBlank && line == [] && blankBehind blank ls then [] else [line] := by
  induction ls generalizing blank with
  | nil =>
    rw [List.nil_append, keptLines, keptLines, blankBehind]
    rfl
  | cons first ls ih =>
    rw [List.cons_append, keptLines, keptLines]
    split
    · next hdrop =>
      have hblank : blank = (first == []) := by
        simp only [Bool.and_eq_true] at hdrop
        rw [hdrop.2, hdrop.1.2]
      rw [ih, hblank, blankBehind_cons]
    · rw [ih, blankBehind_cons]
      rfl

theorem numbered_append (flags : CatFlags) (ls others : List Bytes) (n : Nat) :
    numberedLines flags (fun _ => true) n (ls ++ others) =
      numberedLines flags (fun _ => true) n ls ++
        numberedLines flags (fun _ => true) (n + ls.length) others := by
  induction ls generalizing n with
  | nil => rfl
  | cons line ls ih =>
    rw [List.cons_append, numberedLines, numberedLines, ih, if_pos rfl, List.length_cons,
      Nat.add_right_comm, Nat.add_assoc, List.cons_append]

end Numbering

section CatLoop

variable {flags : CatFlags} {line rest text : Bytes} {ls : List Bytes} {n : Nat} {blank : Bool}

theorem lineLength_eq (h : line.length < 2 ^ 31) : lineLength line = line.length :=
  Int.bmod_eq_of_le (by omega) (by omega)

theorem lineLength_zero (h : line.length < 2 ^ 31) : (lineLength line == 0) = (line == []) := by
  rw [lineLength_eq h, Bool.eq_iff_iff, beq_iff_eq, beq_iff_eq, ← List.length_eq_zero_iff]
  omega

theorem catLine_eq (h : line.length < 2 ^ 31) (flags : CatFlags) (n : Nat) :
    catLine flags n line = shownLine flags n line := by
  have hblank : (lineLength line != 0) = (line != []) := congrArg (!·) (lineLength_zero h)
  rw [catLine, shownLine, numbersLine, hblank, seenBytes_eq h]

theorem squeezes_eq (h : line.length < 2 ^ 31) (flags : CatFlags) (blank : Bool) :
    squeezes flags blank line = (flags.squeezeBlank && line == [] && blank) := by
  rw [squeezes, lineLength_zero h]

theorem catLoop_line (hline : newline ∉ line) (front rest : Bytes) :
    catLoop flags n blank front (line ++ rest) = catLoop flags n blank (front ++ line) rest := by
  induction line generalizing front with
  | nil => rw [List.nil_append, List.append_nil]
  | cons c line ih =>
    have hc : c ≠ newline := (List.ne_of_not_mem_cons hline).symm
    rw [List.cons_append, catLoop, if_pos hc, ih (List.not_mem_of_not_mem_cons hline),
      List.append_assoc, List.singleton_append]

-- The text behind the last line feed is taken for one more line, even when nothing is there.
def lastShown (flags : CatFlags) (n : Nat) (blank : Bool) (ls : List Bytes) (rest : Bytes) : Bytes :=
  if flags.squeezeBlank && rest == [] && blankBehind blank ls then []
  else shownLine flags (n + (keptLines flags blank ls).length) rest

theorem catLoop_lines (hls : ∀ line ∈ ls, newline ∉ line ∧ line.length < 2 ^ 31)
    (hrest : newline ∉ rest ∧ rest.length < 2 ^ 31) (hn : n + ls.length + 1 ≤ 2147483647) :
    catLoop flags n blank [] (endedLines newline ls ++ rest) =
      .ok ((numberedLines flags (fun _ => true) n (keptLines flags blank ls)).flatMap
          (· ++ lineEnd flags) ++ lastShown flags n blank ls rest) := by
  induction ls generalizing n blank with
  | nil =>
    have hbehind : blankBehind blank [] = blank := rfl
    have hloop : catLoop flags n blank [] (rest ++ []) = catLoop flags n blank ([] ++ rest) [] :=
      catLoop_line hrest.1 [] []
    rw [List.append_nil, List.nil_append] at hloop
    rw [endedLines, List.flatMap_nil, List.nil_append, hloop, catLoop, squeezes_eq hrest.2,
      catLine_eq hrest.2, lastShown, hbehind, checkedNat_ok (by simpa using hn)]
    split
    · rfl
    · rfl
  | cons line ls ih =>
    obtain ⟨hline, hls⟩ := List.forall_mem_cons.mp hls
    rw [List.length_cons] at hn
    rw [endedLines_cons, List.append_assoc, List.cons_append, catLoop_line hline.1, List.nil_append,
      catLoop, if_neg (not_not.mpr rfl), squeezes_eq hline.2, lineLength_zero hline.2, keptLines]
    split
    · next hdrop =>
      have hblank : blank = (line == []) := by
        simp only [Bool.and_eq_true] at hdrop
        rw [hdrop.2, hdrop.1.2]
      rw [ih hls (by omega), lastShown, lastShown, blankBehind_cons, ← hblank, keptLines, if_pos hdrop]
    · next hkeep =>
      rw [checkedNat_ok (by omega), catLine_eq hline.2]
      simp only [bind, Except.bind]
      rw [ih hls (by omega)]
      dsimp only
      rw [numberedLines, if_pos rfl, List.flatMap_cons, lastShown, lastShown, blankBehind_cons,
        keptLines, if_neg hkeep, List.length_cons, Nat.add_right_comm n 1, Nat.add_assoc n]
      simp only [List.append_assoc]

end CatLoop

section Shown

variable {flags : CatFlags} {line rest text : Bytes} {ls others : List Bytes} {n m : Nat}

def lastBlank (text : Bytes) : Bool := blankBehind false (linesOf newline text)

def catExtra (flags : CatFlags) (text : Bytes) : Bytes :=
  if flags = noCatFlags then closing text
  else if endsLine text && !(flags.squeezeBlank && lastBlank text) then
    shownLine flags (1 + (squeezedLines flags (linesOf newline text)).length) []
  else []

def catShown (flags : CatFlags) (text : Bytes) : Bytes :=
  joinedLines flags (endsLine text) (linesShown flags (fun _ => true) text) ++ catExtra flags text

theorem numbered_plain (counts : Bytes → Bool) (ls : List Bytes) (n : Nat) :
    numberedLines noCatFlags counts n ls = ls := by
  induction ls generalizing n with
  | nil => rfl
  | cons line ls ih => rw [numberedLines, ih]; rfl

theorem joined_parts (flags : CatFlags) (ls : List Bytes) (rest : Bytes) :
    joinedLines flags false (ls ++ [rest]) = ls.flatMap (· ++ lineEnd flags) ++ rest := by
  rw [joinedLines, if_neg Bool.false_ne_true, intercalate_last]

theorem endsLine_parts (hrest : newline ∉ rest) (hne : endedLines newline ls ++ rest ≠ []) :
    endsLine (endedLines newline ls ++ rest) = (rest == []) := by
  by_cases h : rest = []
  · subst h
    have hls : ls ≠ [] := by
      rintro rfl
      exact hne rfl
    rw [endsLine, List.append_nil, getLast?_ended hls]
    rfl
  · have hlast : (endedLines newline ls ++ rest).getLast? ≠ some newline := by
      rw [List.getLast?_append_of_ne_nil _ h]
      exact fun heq => hrest (List.mem_of_getLast? heq)
    rw [endsLine, beq_eq_false_iff_ne.mpr hlast, beq_eq_false_iff_ne.mpr h]

theorem catText_eq (flags : CatFlags) (hne : text ≠ []) (hsize : text.length + 2 < 2 ^ 31) :
    catText flags text = .ok (catShown flags text) := by
  obtain ⟨ls, rest, htext, hls, hrest⟩ := lines_and_rest text
  have hends : endsLine text = (rest == []) := by
    rw [htext]
    exact endsLine_parts hrest (htext ▸ hne)
  have hlines : linesOf newline text = if rest = [] then ls else ls ++ [rest] := by
    rw [htext, linesOf_parts hls hrest]
  by_cases hflags : flags = noCatFlags
  · subst hflags
    have hsame : joinedLines noCatFlags (endsLine text) (linesOf newline text) = text := by
      rw [hends, hlines]
      by_cases hend : rest = []
      · rw [if_pos hend, htext, hend, List.append_nil]
        rfl
      · rw [if_neg hend, beq_eq_false_iff_ne.mpr hend, joined_parts, htext]
        rfl
    rw [catText, if_pos rfl, catShown, catExtra, if_pos rfl, linesShown, numbered_plain, squeezedLines,
      if_neg (by decide), hsame]
  · have hshort : ∀ line ∈ ls, line.length < 2 ^ 31 := by
      intro line hline
      have hsub := length_endedLines_sublist newline (List.singleton_sublist.mpr hline)
      have hsize : text.length = (endedLines newline ls).length + rest.length := by
        rw [htext, List.length_append]
      rw [endedLines_cons, List.length_append, List.length_cons] at hsub
      omega
    have hcount : ls.length ≤ text.length := by
      rw [← count_ended hls hrest, ← htext]
      exact List.count_le_length
    have hlast : rest.length ≤ text.length := by
      rw [htext, List.length_append]
      omega
    have hloop : catLoop flags 1 false [] text = _ := htext ▸ catLoop_lines
      (fun line hline => ⟨hls line hline, hshort line hline⟩) ⟨hrest, by omega⟩ (by omega)
    rw [catText, if_neg hflags, hloop, lastShown, kept_eq, catShown, linesShown, catExtra,
      if_neg hflags, lastBlank, hends, hlines]
    by_cases hend : rest = []
    · have hblank : (([] : Bytes) == []) = true := rfl
      rw [hend, if_pos rfl, hblank, joinedLines, if_pos rfl, Bool.and_true, Bool.true_and]
      cases flags.squeezeBlank && blankBehind false ls <;> rfl
    · have hnot : (rest == []) = false := beq_eq_false_iff_ne.mpr hend
      rw [if_neg hend, hnot, ← kept_eq, ← kept_eq, kept_concat, hnot, Bool.and_false, Bool.false_and,
        if_neg Bool.false_ne_true, if_neg Bool.false_ne_true, numbered_append, numberedLines,
        numberedLines, joined_parts, Bool.false_and, if_neg Bool.false_ne_true, List.append_nil]

end Shown

section Promises

variable {flags : CatFlags} {line text : Bytes} {ls others : List Bytes} {n m : Nat} {blank : Bool}

theorem mem_numberField {b : UInt8} (h : b ∈ numberField n) : b = 32 ∨ b = 9 ∨ isDigit b = true := by
  rcases List.mem_append.mp h with h | h
  · rcases List.mem_append.mp h with h | h
    · exact .inl (List.eq_of_mem_replicate h)
    · rw [intText, if_neg (by omega)] at h
      exact .inr (.inr (isDigit_of_mem_decimalText b h))
  · exact .inr (.inl (List.mem_singleton.mp h))

theorem numberField_inj (h : numberField n = numberField m) : n = m := by
  have hplain : ∀ k : Nat, (padded 6 (intText k)).filter (· ≠ 32) = intText k := by
    intro k
    rw [padded, List.filter_append, List.filter_replicate_of_neg (by simp), List.nil_append,
      List.filter_eq_self]
    intro b hb
    rw [intText, if_neg (by omega)] at hb
    have hdigit := (isDigit_bounds (isDigit_of_mem_decimalText b hb)).1
    have hother : b ≠ 32 := by
      rintro rfl
      exact absurd hdigit (by decide)
    simpa using hother
  have hpadded := List.append_cancel_right h
  have hsame : intText n = intText m := by rw [← hplain n, hpadded, hplain m]
  exact intText_inj hsame

theorem length_numberField_le (h : m ≤ n) : (numberField m).length ≤ (numberField n).length := by
  have hpos : 0 < (decimalText n).length := List.length_pos_of_ne_nil (decimalText_ne_nil n)
  have hbound := (length_decimalText_le_iff hpos).mp (Nat.le_refl _)
  have hdigits : (decimalText m).length ≤ (decimalText n).length :=
    (length_decimalText_le_iff hpos).mpr (Nat.lt_of_le_of_lt h hbound)
  have hint : ∀ k : Nat, intText k = decimalText k := fun k => by
    rw [intText, if_neg (by omega), Int.toNat_natCast]
  simp only [numberField, padded, hint, List.length_append, List.length_replicate]
  omega

theorem shownLine_inj : shownLine flags n line = shownLine flags m line ↔
    (numbersLine flags line = true → n = m) := by
  rw [shownLine, shownLine]
  by_cases h : numbersLine flags line = true
  · simp only [h, if_true, forall_const]
    exact ⟨fun heq => numberField_inj (List.append_cancel_right heq), fun heq => heq ▸ rfl⟩
  · simp [h]

theorem numbered_agree_iff (h : m ≤ n) :
    numberedLines flags (fun _ => true) n ls = numberedLines flags (numbersLine flags) m ls ↔
      (∀ line ∈ ls, numbersLine flags line = false) ∨
        n = m ∧ ls.Pairwise fun a b => numbersLine flags a = false → numbersLine flags b = false := by
  induction ls generalizing n m with
  | nil => exact iff_of_true rfl (.inl fun _ hin => absurd hin List.not_mem_nil)
  | cons line ls ih =>
    rw [numberedLines, numberedLines, List.cons.injEq, shownLine_inj, if_pos rfl, List.forall_mem_cons,
      List.pairwise_cons]
    by_cases hline : numbersLine flags line = true
    · rw [if_pos hline, ih (Nat.add_le_add_right h 1)]
      have hpairs : (∀ other ∈ ls, numbersLine flags other = false) →
          ls.Pairwise fun a b => numbersLine flags a = false → numbersLine flags b = false :=
        fun hnone => List.pairwise_of_forall_mem_list fun a _ b hb _ => hnone b hb
      simp only [hline, forall_const, Nat.add_right_cancel_iff, Bool.true_eq_false, false_and,
        false_or, false_implies, implies_true, true_and]
      constructor
      · rintro ⟨heq, hnone | ⟨-, hpairwise⟩⟩
        · exact ⟨heq, hpairs hnone⟩
        · exact ⟨heq, hpairwise⟩
      · exact fun ⟨heq, hpairwise⟩ => ⟨heq, .inr ⟨heq, hpairwise⟩⟩
    · have hnot : numbersLine flags line = false := by simpa using hline
      have hmore : n + 1 ≠ m := by omega
      rw [if_neg hline, ih (Nat.le_succ_of_le h)]
      simp only [hnot, Bool.false_eq_true, false_implies, true_and, hmore, false_and, or_false,
        forall_const]
      constructor
      · exact .inl
      · rintro (hnone | ⟨-, hnone, -⟩)
        · exact hnone
        · exact hnone

theorem blankPairs_cons (blank : Bool) (line : Bytes) (ls : List Bytes) :
    ((blank = true → ∀ other ∈ line :: ls, other = []) ∧
        (line :: ls).Pairwise fun a b => a = [] → b = []) ↔
      (blank = true → line = []) ∧
        (line = [] → ∀ other ∈ ls, other = []) ∧ ls.Pairwise fun a b => a = [] → b = [] := by
  rw [List.forall_mem_cons, List.pairwise_cons]
  constructor
  · rintro ⟨hall, hfirst, hpairs⟩
    exact ⟨fun hblank => (hall hblank).1, fun hline other hin => hfirst other hin hline, hpairs⟩
  · rintro ⟨hline, hlater, hpairs⟩
    exact ⟨fun hblank => ⟨hline hblank, hlater (hline hblank)⟩,
      fun other hin hblank => hlater hblank other hin, hpairs⟩

theorem pairwise_kept_iff (flags : CatFlags) (blank : Bool) (ls : List Bytes) :
    ((blank = true → ∀ line ∈ keptLines flags blank ls, line = []) ∧
        (keptLines flags blank ls).Pairwise fun a b => a = [] → b = []) ↔
      (blank = true → ∀ line ∈ ls, line = []) ∧ ls.Pairwise fun a b => a = [] → b = [] := by
  induction ls generalizing blank with
  | nil => rfl
  | cons line ls ih =>
    have hrest := ih (line == [])
    rw [beq_iff_eq] at hrest
    rw [keptLines]
    split
    · next hdrop =>
      simp only [Bool.and_eq_true, beq_iff_eq] at hdrop
      obtain ⟨⟨-, rfl⟩, rfl⟩ := hdrop
      rw [ih true, blankPairs_cons]
      constructor
      · exact fun ⟨hall, hpairs⟩ => ⟨fun _ => rfl, fun _ => hall rfl, hpairs⟩
      · exact fun ⟨_, hall, hpairs⟩ => ⟨fun _ => hall rfl, hpairs⟩
    · rw [blankPairs_cons, blankPairs_cons, hrest]

theorem pairwise_squeezed_iff (flags : CatFlags) (ls : List Bytes) :
    ((squeezedLines flags ls).Pairwise fun a b => a = [] → b = []) ↔
      ls.Pairwise fun a b => a = [] → b = [] := by
  have hiff := pairwise_kept_iff flags false ls
  simpa [kept_eq] using hiff

end Promises

section Fitting

variable {flags : CatFlags} {text : Bytes} {ls shown others : List Bytes} {ended : Bool} {n m : Nat}

structure CatFits (flags : CatFlags) (text : Bytes) : Prop where
  nonempty : text ≠ []
  plain : flags = noCatFlags → text.getLast? = some newline
  number : flags.number = true → text.getLast? = some newline →
    flags.squeezeBlank = true ∧ (linesOf newline text).getLast? = some []
  nonblank : flags.numberNonblank = true → flags.number = false →
    (linesOf newline text).Pairwise fun a b => a = [] → b = []

theorem newline_not_mem_numbered {counts : Bytes → Bool} (h : ∀ line ∈ ls, newline ∉ line) :
    ∀ line ∈ numberedLines flags counts n ls, newline ∉ line := by
  have hfield : ∀ k, newline ∉ numberField k := by
    intro k hin
    rcases mem_numberField hin with hspace | htab | hdigit
    · exact absurd hspace (by decide)
    · exact absurd htab (by decide)
    · exact absurd (isDigit_bounds hdigit).1 (by decide)
  induction ls generalizing n with
  | nil => exact fun _ hin => absurd hin List.not_mem_nil
  | cons line ls ih =>
    obtain ⟨hline, hls⟩ := List.forall_mem_cons.mp h
    rw [numberedLines]
    refine List.forall_mem_cons.mpr ⟨?_, ih hls⟩
    rw [shownLine]
    split
    · exact List.not_mem_append (hfield n) hline
    · exact hline

theorem numbered_eq_nil {counts : Bytes → Bool} : numberedLines flags counts n ls = [] ↔ ls = [] := by
  cases ls with
  | nil => exact iff_of_true rfl rfl
  | cons line ls => simp [numberedLines]

theorem flatMap_lineEnd (flags : CatFlags) (ls : List Bytes) : ls.flatMap (· ++ lineEnd flags) =
    endedLines newline (ls.map (· ++ if flags.showEnds then [36] else [])) := by
  rw [endedLines, List.flatMap_map]
  refine List.flatMap_congr fun line _ => ?_
  rw [lineEnd, List.append_assoc]
  split <;> rfl

theorem joinedLines_closed (hne : ls ≠ []) (flags : CatFlags) :
    joinedLines flags false ls ++ lineEnd flags = joinedLines flags true ls := by
  obtain ⟨front, last, rfl⟩ := (List.eq_nil_or_concat' ls).resolve_left hne
  rw [joined_parts, joinedLines, if_pos rfl, List.flatMap_append, List.flatMap_singleton,
    List.append_assoc]

theorem joinedLines_inj (hshown : shown ≠ []) (hothers : others ≠ [])
    (hs : ∀ line ∈ shown, newline ∉ line)
    (ho : ∀ line ∈ others, newline ∉ line) :
    joinedLines flags ended shown = joinedLines flags ended others ↔ shown = others := by
  have hplain : ∀ {ls : List Bytes}, (∀ line ∈ ls, newline ∉ line) →
      ∀ line ∈ ls.map (· ++ if flags.showEnds then [36] else []), newline ∉ line := by
    intro ls hls line hline
    obtain ⟨bare, hbare, rfl⟩ := List.mem_map.mp hline
    refine List.not_mem_append (hls bare hbare) ?_
    split <;> decide
  have hended : joinedLines flags true shown = joinedLines flags true others ↔ shown = others := by
    refine ⟨fun h => ?_, fun h => h ▸ rfl⟩
    rw [joinedLines, joinedLines, if_pos rfl, if_pos rfl, flatMap_lineEnd, flatMap_lineEnd] at h
    have hmaps := endedLines_inj (hplain hs) (hplain ho) h
    exact (List.map_injective_iff.mpr fun a b hab => List.append_cancel_right hab) hmaps
  cases ended with
  | true => exact hended
  | false =>
    rw [← List.append_left_inj (lineEnd flags), joinedLines_closed hshown, joinedLines_closed hothers,
      hended]

theorem length_joinedLines_le (hne : ls ≠ []) (h : m ≤ n) :
    (joinedLines flags ended (numberedLines flags (numbersLine flags) m ls)).length ≤
      (joinedLines flags ended (numberedLines flags (fun _ => true) n ls)).length := by
  have hended : (joinedLines flags true (numberedLines flags (numbersLine flags) m ls)).length ≤
      (joinedLines flags true (numberedLines flags (fun _ => true) n ls)).length := by
    rw [joinedLines, joinedLines, if_pos rfl, if_pos rfl]
    clear hne
    induction ls generalizing n m with
    | nil => exact Nat.le_refl 0
    | cons line ls ih =>
      have hline : (shownLine flags m line).length ≤ (shownLine flags n line).length := by
        have hfield := length_numberField_le h
        rw [shownLine, shownLine]
        split <;> simp [hfield]
      have hrest := ih (n := n + 1) (m := if numbersLine flags line then m + 1 else m)
        (by split <;> omega)
      simp only [numberedLines, List.flatMap_cons, List.length_append, if_true] at hrest ⊢
      omega
  cases ended with
  | true => exact hended
  | false =>
    rw [← joinedLines_closed (numbered_eq_nil.not.mpr hne), ← joinedLines_closed
      (numbered_eq_nil.not.mpr hne), List.length_append, List.length_append] at hended
    omega

end Fitting

section Concatenating

variable {ω : Type} {flags : CatFlags} {text filename : Bytes} {files texts : List Bytes}
variable {s t : VfsState}

theorem catExtra_eq_nil_iff (flags : CatFlags) (text : Bytes) : catExtra flags text = [] ↔
    (flags = noCatFlags → text.getLast? = some newline) ∧
      (flags.number = true → text.getLast? = some newline →
        flags.squeezeBlank = true ∧ (linesOf newline text).getLast? = some []) := by
  have hfield : ∀ k, shownLine flags k [] = [] ↔ flags.number = false := by
    intro k
    have hnumbers : numbersLine flags [] = flags.number := by
      rw [numbersLine, bne_self_eq_false, Bool.and_false, Bool.or_false]
    rw [shownLine, hnumbers]
    cases flags.number <;> simp [numberField]
  have hblank : lastBlank text = true ↔ (linesOf newline text).getLast? = some [] := by
    rw [lastBlank, blankBehind]
    cases (linesOf newline text).getLast? <;> simp
  have hends : endsLine text = true ↔ text.getLast? = some newline := beq_iff_eq
  rw [catExtra]
  by_cases hflags : flags = noCatFlags
  · subst hflags
    rw [if_pos rfl, closing]
    by_cases hlast : text.getLast? = some newline <;> simp [hlast, noCatFlags]
  · rw [if_neg hflags, ← hblank, ← hends]
    cases endsLine text <;> cases flags.squeezeBlank <;> cases lastBlank text <;>
      simp [hfield, hflags]

theorem promised_of_nil (flags : CatFlags) : promisedText flags [] = [] := by
  have hnone : squeezedLines flags [] = [] := by
    rw [squeezedLines]
    split <;> rfl
  rw [promisedText, linesShown, linesOf_nil, hnone]
  rfl

theorem squeezed_ne_nil (hne : text ≠ []) : squeezedLines flags (linesOf newline text) ≠ [] := by
  obtain ⟨line, ls, hlines⟩ := List.exists_cons_of_ne_nil (linesOf_eq_nil.not.mpr hne)
  rw [← kept_eq, hlines, keptLines, if_neg (by simp)]
  exact List.cons_ne_nil line _

theorem linesShown_ne_nil (flags : CatFlags) (counts : Bytes → Bool) (hne : text ≠ []) :
    linesShown flags counts text ≠ [] := numbered_eq_nil.not.mpr (squeezed_ne_nil hne)

theorem newline_not_mem_linesShown (flags : CatFlags) (counts : Bytes → Bool) (text : Bytes) :
    ∀ line ∈ linesShown flags counts text, newline ∉ line := by
  refine newline_not_mem_numbered fun line hline => @not_mem_of_linesOf _ text _ ?_
  rw [squeezedLines] at hline
  split at hline
  · exact (List.destutter_sublist _ _).subset hline
  · exact hline

theorem linesShown_agree_iff (flags : CatFlags) (text : Bytes) :
    linesShown flags (fun _ => true) text = linesShown flags (numbersLine flags) text ↔
      (flags.numberNonblank = true → flags.number = false →
        (linesOf newline text).Pairwise fun a b => a = [] → b = []) := by
  rw [linesShown, linesShown, numbered_agree_iff (Nat.le_refl 1), ← pairwise_squeezed_iff flags]
  cases hnumber : flags.number with
  | true =>
    have hall : ∀ line, numbersLine flags line = true := fun line => by rw [numbersLine, hnumber]; rfl
    refine iff_of_true (.inr ⟨rfl, ?_⟩) (fun _ h => absurd h (by decide))
    simp only [hall, Bool.true_eq_false, false_implies]
    exact List.pairwise_of_forall fun _ _ => trivial
  | false =>
    cases hnonblank : flags.numberNonblank with
    | false =>
      have hnone : ∀ line, numbersLine flags line = false := fun line => by
        rw [numbersLine, hnumber, hnonblank]
        rfl
      exact iff_of_true (.inl fun line _ => hnone line) (fun h => absurd h (by decide))
    | true =>
      have hline : ∀ line, numbersLine flags line = false ↔ line = [] := fun line => by
        rw [numbersLine, hnumber, hnonblank, Bool.false_or, Bool.true_and, bne_eq_false_iff_eq]
      simp only [hline, forall_const, true_and]
      refine ⟨fun h => h.elim (fun hblank => ?_) id, .inr⟩
      exact List.pairwise_of_forall_mem_list fun _ _ b hb _ => hblank b hb

theorem length_joined_le (flags : CatFlags) (hne : text ≠ []) :
    (promisedText flags text).length ≤
      (joinedLines flags (endsLine text) (linesShown flags (fun _ => true) text)).length :=
  length_joinedLines_le (squeezed_ne_nil hne) (Nat.le_refl 1)

theorem catShown_eq_iff (hne : text ≠ []) :
    catShown flags text = promisedText flags text ↔ CatFits flags text := by
  have hlines : joinedLines flags (endsLine text) (linesShown flags (fun _ => true) text) =
      promisedText flags text ↔ linesShown flags (fun _ => true) text =
        linesShown flags (numbersLine flags) text :=
    joinedLines_inj (linesShown_ne_nil flags _ hne) (linesShown_ne_nil flags _ hne)
      (newline_not_mem_linesShown flags _ text) (newline_not_mem_linesShown flags _ text)
  have hboth : catShown flags text = promisedText flags text ↔
      catExtra flags text = [] ∧
        joinedLines flags (endsLine text) (linesShown flags (fun _ => true) text) =
          promisedText flags text := by
    have hle := length_joined_le flags hne
    rw [catShown]
    constructor
    · intro heq
      have hlength := congrArg List.length heq
      rw [List.length_append] at hlength
      have hextra : catExtra flags text = [] := List.length_eq_zero_iff.mp (by omega)
      rw [hextra, List.append_nil] at heq
      exact ⟨hextra, heq⟩
    · rintro ⟨hextra, heq⟩
      rw [hextra, List.append_nil, heq]
  rw [hboth, hlines, catExtra_eq_nil_iff, linesShown_agree_iff]
  exact ⟨fun ⟨⟨hplain, hnumber⟩, hnonblank⟩ => ⟨hne, hplain, hnumber, hnonblank⟩,
    fun h => ⟨⟨h.plain, h.number⟩, h.nonblank⟩⟩

def emptyFileShown : Bytes := str "(empty file)\n"

def catPrinted (flags : CatFlags) (text : Bytes) : Bytes :=
  if text = [] then emptyFileShown else catShown flags text

theorem catPrinted_eq_iff (flags : CatFlags) (text : Bytes) :
    catPrinted flags text = promisedText flags text ↔ CatFits flags text := by
  rw [catPrinted]
  split
  · next hnil =>
    have hfits : ¬ CatFits flags text := fun h => h.nonempty hnil
    rw [hnil, promised_of_nil]
    exact iff_of_false (by decide) (hnil ▸ hfits)
  · next hne => exact catShown_eq_iff hne

theorem length_promised_le (flags : CatFlags) (text : Bytes) :
    (promisedText flags text).length ≤ (catPrinted flags text).length := by
  rw [catPrinted]
  split
  · next hnil =>
    rw [hnil, promised_of_nil]
    exact Nat.zero_le _
  · next hne =>
    have hle := length_joined_le flags hne
    rw [catShown, List.length_append]
    omega

theorem catFile_eq (hs : WellEnded s)
    (hread : readBytes s (fullPath s.currentDirectory filename) = some text)
    (hsize : text.length + 2 < 2 ^ 31) :
    ∃ t, (∀ (w : World ω) flags front,
        catFile w flags (front, s) filename = .ok (front ++ catPrinted flags text, t)) ∧
      WellEnded t ∧ t.currentDirectory = s.currentDirectory ∧
        ∀ path other, readBytes s path = some other → readBytes t path = some other := by
  obtain ⟨p, t, hcall, hcopy⟩ := hs.read_copied hread
  have ht : WellEnded t := by
    refine wellEnded_step (c := .readFile (fullPath s.currentDirectory filename)) hs ?_
    rw [vfsStep, vfsCall, hcall]
    rfl
  have hcwd : t.currentDirectory = s.currentDirectory := by
    rcases vfsReadFile_cases hcall with ⟨-, rfl⟩ | ⟨n, a, -, -, -, -, hload⟩
    · rfl
    · rcases hload with ⟨_, -, -, rfl⟩ | ⟨-, content, -, -, rfl⟩
      · rfl
      · rfl
  refine ⟨t, fun w flags front => ?_, ht, hcwd,
    fun path other hother => readBytes_kept hs hcall hother⟩
  rcases vfsReadFile_cases hcall with ⟨hnone, -⟩ | ⟨node, a, hfind, ha, hfile, -, -⟩
  · cases hnone
  · have hnode := nodeAt_of_valAt ha
    rw [catFile]
    simp only [hfind, hnode, hfile, hcall, hcopy, Checked.of, Except.mapError, bind, Except.bind,
      Bool.false_eq_true, if_false, List.length_eq_zero_iff]
    by_cases hne : text = []
    · rw [if_pos hne, catPrinted, if_pos hne]
      rfl
    · rw [if_neg hne, catText_eq flags hne hsize, catPrinted, if_neg hne]

def ReadsAll (s : VfsState) (files texts : List Bytes) : Prop :=
  List.Forall₂ (fun filename text =>
    readBytes s (fullPath s.currentDirectory filename) = some text ∧ text.length + 2 < 2 ^ 31)
    files texts

theorem catFiles_eq (hs : WellEnded s) (h : ReadsAll s files texts) (w : World ω) (flags : CatFlags)
    (front : Bytes) : ∃ t, files.foldlM (catFile w flags) (front, s) =
      .ok (front ++ texts.flatMap (catPrinted flags), t) := by
  induction files generalizing s texts front with
  | nil =>
    obtain rfl := List.forall₂_nil_left_iff.mp h
    exact ⟨s, by rw [List.flatMap_nil, List.append_nil]; rfl⟩
  | cons filename files ih =>
    obtain ⟨text, others, ⟨hread, hsize⟩, hothers, rfl⟩ := List.forall₂_cons_left_iff.mp h
    obtain ⟨t, hcat, ht, hcwd, hkept⟩ := catFile_eq hs hread hsize (ω := ω)
    have hlater : ReadsAll t files others := hothers.imp fun name other hother =>
      ⟨hcwd ▸ hkept _ _ hother.1, hother.2⟩
    obtain ⟨u, hrest⟩ := ih ht hlater (front ++ catPrinted flags text)
    refine ⟨u, ?_⟩
    rw [List.foldlM_cons, hcat w flags front]
    simp only [bind, Except.bind]
    rw [hrest, List.flatMap_cons, List.append_assoc]

theorem cat_shows_promised_iff {w : World ω} {argv : List Bytes} {cmd : ParsedCommand}
    (hreach : Reachable w.vfs) (hcmd : parseCommandAdvancedFromArgs ⟨[], []⟩ argv = cmd)
    (hhelp : hasFlag cmd (str "-h") = false ∧ hasFlag cmd (str "--help") = false)
    (hsome : texts ≠ []) (hread : ReadsAll w.vfs cmd.args.tail texts) :
    (∃ t, catCommand w argv = .ok (texts.flatMap (promisedText (catFlags cmd)), t)) ↔
      ∀ text ∈ texts, CatFits (catFlags cmd) text := by
  obtain ⟨t, hrun⟩ := catFiles_eq hreach.wellEnded hread w (catFlags cmd) []
  have htwo : ¬ cmd.args.length < 2 := by
    have hlength := hread.length_eq
    have hpos := List.length_pos_of_ne_nil hsome
    rw [List.length_tail] at hlength
    omega
  have hcommand : catCommand w argv = .ok (texts.flatMap (catPrinted (catFlags cmd)), t) := by
    rw [catCommand, hcmd]
    rw [hhelp.1, hhelp.2, Bool.or_false, if_neg Bool.false_ne_true, if_neg htwo, hrun, List.nil_append]
  have hall : texts.flatMap (catPrinted (catFlags cmd)) = texts.flatMap (promisedText (catFlags cmd)) ↔
      ∀ text ∈ texts, catPrinted (catFlags cmd) text = promisedText (catFlags cmd) text :=
    flatMap_eq_iff fun text _ => length_promised_le (catFlags cmd) text
  simp only [catPrinted_eq_iff] at hall
  rw [← hall, hcommand]
  constructor
  · rintro ⟨u, heq⟩
    exact (Prod.mk.inj (Except.ok.inj heq)).1
  · exact fun heq => ⟨t, heq ▸ rfl⟩

end Concatenating

section Concrete

theorem fruits_counted : WcAgrees (mountedText fruits) (str "/m/f") fruits :=
  (wc_agrees_iff reachable_fruits (by decide) (by decide +kernel) (by decide)).mpr (by decide)

def endsShown : List Bytes := [str "cat", str "-E", str "/m/f"]

theorem fruits_shown : ∃ t, catCommand (loggedIn (mountedText fruits)) endsShown =
    .ok ([fruits].flatMap (promisedText ⟨false, false, false, true⟩), t) := by
  have hcmd : parseCommandAdvancedFromArgs ⟨[], []⟩ endsShown =
      ⟨[str "cat", str "/m/f"], [str "-E"]⟩ := by decide +kernel
  have hread : ReadsAll (mountedText fruits) [str "/m/f"] [fruits] :=
    .cons ⟨by decide +kernel, by decide⟩ .nil
  refine (cat_shows_promised_iff reachable_fruits hcmd ⟨by decide, by decide⟩ (by decide) hread).mpr ?_
  intro text htext
  rw [List.mem_singleton.mp htext]
  exact ⟨by decide, fun h => absurd h (by decide), fun h => absurd h (by decide),
    fun h => absurd h (by decide)⟩

def hostWithTexts (text1 text2 : Bytes) : Host :=
  openHost [(Location.resolve (str "C:\\d"), .directory),
    (Location.resolve (str "C:\\d\\f"), .file text1),
    (Location.resolve (str "C:\\d\\g"), .file text2)]

def mountedTexts : VfsState :=
  ran (fun _ _ => true) (hostWithTexts (str "a\nb\n") (str "a\nc\n"))
    [.mountPersistent (str "/m") (str "C:\\d")]

theorem reachable_texts : Reachable mountedTexts := by
  have hreach := reachableBy_ran (fun _ _ => true) (hostWithTexts (str "a\nb\n") (str "a\nc\n"))
    [.mountPersistent (str "/m") (str "C:\\d")] (by decide +kernel) (by decide +kernel)
  exact ⟨_, hreach.mono fun _ _ _ => trivial⟩

theorem texts_compared :
    DiffTells mountedTexts (str "/m/f") (str "/m/g") (str "a\nb\n") (str "a\nc\n") :=
  (diff_tells_iff reachable_texts (by decide +kernel) (by decide +kernel) (by decide) (by decide)).mpr
    (.inr (by decide +kernel))

end Concrete

end ZoraVM.Shell
