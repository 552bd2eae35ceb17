import ZoraVM.Foundation.Strtok
import ZoraVM.Shell.UserFile
import ZoraVM.Vfs.Operations

namespace ZoraVM.Unix

open Foundation Vfs
open Shell (isSpace scanLiteral)

def newline : UInt8 := 10

def isDigit (c : UInt8) : Bool := decide (48 ≤ c) && decide (c ≤ 57)

def toLower (c : UInt8) : UInt8 := if 65 ≤ c ∧ c ≤ 90 then c + 32 else c

section Scanning

-- "%d"
def scanInt (input : Bytes) : Option (Int × Bytes) :=
  let input := input.dropWhile isSpace
  let negative := input.head? = some 45
  let digits := if input.head? = some 45 ∨ input.head? = some 43 then input.tail else input
  let got := digits.takeWhile isDigit
  if got = [] then none
  else
    let n : Nat := got.foldl (fun n c => 10 * n + (c.toNat - 48)) 0
    some (if negative then -(n : Int) else n, digits.drop got.length)

-- "%d,%dd": the two numbers count, the last letter no longer does.
def scanRange (script : Bytes) : Option (Int × Int) := do
  let (first, rest) ← scanInt script
  let rest ← scanLiteral 44 rest
  let (last, _) ← scanInt rest
  some (first, last)

-- "%da\\%255s" and "%di\\%255s"
def scanText (letter : UInt8) (script : Bytes) : Option (Int × Bytes) := do
  let (line, rest) ← scanInt script
  let rest ← scanLiteral letter rest
  let rest ← scanLiteral backslash rest
  let text := ((rest.dropWhile isSpace).take 255).takeWhile fun c => !isSpace c
  if text = [] then none else some (line, text)

end Scanning

section SedOutput

-- What a sed command has written, and the room it believes is left. The lines are counted without a
-- bound here; `numberedLines` keeps the count in an int.
structure SedOutput where
  text : Bytes
  remaining : Nat
  first : Bool
  lineNumber : Nat
  deriving DecidableEq, Repr

-- remaining is a size_t: `output_size - 1` wraps around for an empty file.
def sedStart (outputSize : Nat) : SedOutput :=
  ⟨[], if outputSize = 0 then 2 ^ 64 - 1 else outputSize - 1, true, 1⟩

def SedOutput.more (o : SedOutput) : Bool := 0 < o.remaining

def SedOutput.separate (o : SedOutput) : SedOutput :=
  if !o.first && o.more then
    { o with text := o.text ++ [newline], remaining := o.remaining - 1 }
  else { o with first := false }

def SedOutput.copy (o : SedOutput) (line : Bytes) : SedOutput :=
  if line.length ≤ o.remaining then
    { o with text := o.text ++ line, remaining := o.remaining - line.length }
  else o

def SedOutput.endLine (o : SedOutput) : SedOutput :=
  if o.more then { o with text := o.text ++ [newline], remaining := o.remaining - 1 } else o

-- The terminator has to fit what was allocated.
def SedOutput.finish (o : SedOutput) (outputSize : Nat) : Outcome Bytes :=
  if o.text.length < outputSize then .ok o.text else .error .bufferOverflow

def sedCopy (input : Bytes) (outputSize times : Nat) : Outcome Bytes := do
  let text ← cstring input
  let output := (List.replicate times text).flatten
  if output.length < outputSize then .ok output else .error .bufferOverflow

end SedOutput

section Sed

-- The output and the input block as strtok leaves it.
abbrev SedText := Option (Bytes × Bytes)

def sedLines (fuel : Nat) (input : Bytes) (outputSize : Nat)
    (body : SedOutput → Bytes → Option SedOutput) : Outcome SedText := do
  match ← forTokens [newline] SedOutput.more (fun o line t => .ok ((body o line).map (·, t))) fuel
    (sedStart outputSize) input with
  | none => .ok none
  | some (o, t) =>
    let output ← o.finish outputSize
    .ok (some (output, t.text))

structure SedFlags where
  global : Bool
  ignoreCase : Bool
  numeric : Nat
  deriving DecidableEq, Repr

def sedFlags (flags : Bytes) : SedFlags :=
  ⟨flags.contains 103, flags.contains 105,
    ((flags.find? isDigit).map fun c => c.toNat - 48).getD 0⟩

def lineOutputSize : Nat := 2048

def matchesHere (flags : SedFlags) (pattern src : Bytes) : Bool :=
  if flags.ignoreCase then (pattern.map toLower).isPrefixOf (src.map toLower)
  else pattern.isPrefixOf src

-- The rest of the line and what stands in line_output when the loop is left; an empty pattern
-- replaced by nothing with the flag g never leaves it.
def sedLineLoop (pattern replacement : Bytes) (flags : SedFlags) :
    Nat → Bytes → Bytes → Nat → Option (Bytes × Bytes)
  | 0, _, _, _ => none
  | _ + 1, [], out, _ => some ([], out)
  | fuel + 1, c :: src, out, substitutions =>
    if lineOutputSize - 1 ≤ out.length then some (c :: src, out)
    else if matchesHere flags pattern (c :: src) then
      let substitutions := substitutions + 1
      if flags.numeric = 0 ∨ substitutions = flags.numeric ∨ flags.global then
        if replacement.length ≤ lineOutputSize - out.length - 1 then
          let rest := (c :: src).drop pattern.length
          let out := out ++ replacement
          if !flags.global && flags.numeric == 0 then some (rest, out)
          else if 0 < flags.numeric ∧ substitutions = flags.numeric then some (rest, out)
          else sedLineLoop pattern replacement flags fuel rest out substitutions
        else some (c :: src, out)
      else sedLineLoop pattern replacement flags fuel src (out ++ [c]) substitutions
    else sedLineLoop pattern replacement flags fuel src (out ++ [c]) substitutions

def sedLine (fuel : Nat) (pattern replacement : Bytes) (flags : SedFlags) (line : Bytes) :
    Option Bytes :=
  (sedLineLoop pattern replacement flags fuel line [] 0).map fun p =>
    p.2 ++ p.1.take (lineOutputSize - 1 - p.2.length)

def unixSedSubstituteEnhanced (fuel : Nat) (pattern replacement flags input : Bytes)
    (outputSize : Nat) : Outcome SedText :=
  sedLines fuel input outputSize fun o line =>
    (sedLine fuel pattern replacement (sedFlags flags) line).map fun text =>
      (o.separate).copy text

def unixSedDeleteLines (fuel : Nat) (script input : Bytes) (outputSize : Nat) :
    Outcome SedText :=
  let range := match scanRange script with
    | some range => some range
    | none => (scanInt script).map fun p => (p.1, p.1)
  match range with
  | none => do
    let output ← sedCopy input outputSize 1
    .ok (some (output, input))
  | some (startLine, endLine) =>
    sedLines fuel input outputSize fun o line =>
      let kept :=
        if (o.lineNumber : Int) < startLine ∨ (o.lineNumber : Int) > endLine then
          (o.separate).copy line
        else o
      some { kept with lineNumber := kept.lineNumber + 1 }

def unixSedAppend (fuel : Nat) (script input : Bytes) (outputSize : Nat) : Outcome SedText :=
  match scanText 97 script with
  | none => do
    let output ← sedCopy input outputSize 1
    .ok (some (output, input))
  | some (lineNum, appendText) =>
    sedLines fuel input outputSize fun o line =>
      let o := (o.separate).copy line
      let o := if (o.lineNumber : Int) = lineNum ∧ o.more then o.endLine.copy appendText else o
      some { o with lineNumber := o.lineNumber + 1 }

def unixSedInsert (fuel : Nat) (script input : Bytes) (outputSize : Nat) : Outcome SedText :=
  match scanText 105 script with
  | none => do
    let output ← sedCopy input outputSize 1
    .ok (some (output, input))
  | some (lineNum, insertText) =>
    sedLines fuel input outputSize fun o line =>
      let o :=
        if (o.lineNumber : Int) = lineNum then ((o.separate).copy insertText).endLine else o
      let o := (o.separate).copy line
      some { o with lineNumber := o.lineNumber + 1 }

-- "s/pattern/replacement/flags"; `none` without a second '/'.
def sedSubstitution (script : Bytes) : Option (Bytes × Bytes × Bytes) :=
  let p := script.drop 2
  if slash ∉ p then none
  else
    let pattern := p.takeWhile (· ≠ slash)
    let p := p.drop (pattern.length + 1)
    let replacement := p.takeWhile (· ≠ slash)
    some (pattern, replacement, p.drop (replacement.length + 1))

inductive SedEnd where
  | invalid
  | running
  | written (output input : Bytes)
  deriving DecidableEq, Repr

def sedEnd : SedText → SedEnd
  | none => .running
  | some (output, input) => .written output input

-- The commands of unix_sed; pattern and replacement have 256 bytes each, flags has 16.
def sedCommand (fuel : Nat) (script input : Bytes) (outputSize : Nat) : Outcome SedEnd :=
  if (str "s/").isPrefixOf script then
    match sedSubstitution script with
    | none => .ok .invalid
    | some (pattern, replacement, flags) =>
      if 256 ≤ pattern.length ∨ 256 ≤ replacement.length ∨ 16 ≤ flags.length then
        .error .bufferOverflow
      else sedEnd <$> unixSedSubstituteEnhanced fuel pattern replacement flags input outputSize
  else if script = str "d" then do
    let output ← (sedStart outputSize).finish outputSize
    .ok (.written output input)
  else if script = [] then .error .bufferOverflow
  else if script.getLast? = some 100 then
    sedEnd <$> unixSedDeleteLines fuel script input outputSize
  else if script.head? = some 112 then do
    let output ← sedCopy input outputSize 2
    .ok (.written output input)
  else if occurs [97, backslash] script then
    sedEnd <$> unixSedAppend fuel script input outputSize
  else if occurs [105, backslash] script then
    sedEnd <$> unixSedInsert fuel script input outputSize
  else do
    let output ← sedCopy input outputSize 1
    .ok (.written output input)

end Sed

section Input

-- The pointer a client gets, what the block behind it holds, and its size.
structure Input where
  data : Option Nat
  text : Bytes
  size : Nat
  deriving DecidableEq, Repr

def blockText (blocks : Heap Bytes) : Option Nat → Outcome Bytes
  | none => .ok []
  | some p =>
    match blocks.get p with
    | none => .error .freedBlock
    | some text => .ok text

-- Without a file the sample is strdup'ed: no block of the VFS.
def readInput (s : VfsState) (inputFile : Option Bytes) (sample : Bytes) :
    Outcome (Option Input × VfsState) :=
  match inputFile with
  | none => .ok (some ⟨none, sample ++ [0], sample.length⟩, s)
  | some path => do
    match ← vfsReadFile s path with
    | (none, s) => .ok (none, s)
    | (some (data, size), s) =>
      let text ← blockText s.blocks data
      .ok (some ⟨data, text, size⟩, s)

-- strtok has worked in the block itself.
def tokenised (s : VfsState) (data : Option Nat) (text : Bytes) : VfsState :=
  match data with
  | none => s
  | some p => { s with blocks := s.blocks.put p text }

-- free(data)
def release (s : VfsState) (data : Option Nat) : Outcome VfsState := do
  let blocks ← freeData s.blocks data
  .ok { s with blocks := blocks }

variable {s t : VfsState} {path block : Bytes} {p size : Nat}

theorem readInput_text (hread : vfsReadFile s path = .ok (some (some p, size), t))
    (hblock : t.blocks.get p = some block) (sample : Bytes) :
    readInput s (some path) sample = .ok (some ⟨some p, block, size⟩, t) := by
  simp [readInput, hread, blockText, hblock, bind, Except.bind]

theorem release_held (hheld : (t.blocks.get p).isSome = true) :
    release t (some p) = .ok { t with blocks := t.blocks.free p } := by
  have hlive : t.blocks.live p = true := hheld
  simp [release, freeData, hlive, bind, Except.bind]

theorem release_tokenised (hblock : t.blocks.get p = some block) (text : Bytes) :
    release (tokenised t (some p) text) (some p) =
      .ok { t with blocks := (t.blocks.put p text).free p } := by
  have hheld : ((tokenised t (some p) text).blocks.get p).isSome = true := by
    rw [tokenised, Heap.get_put_self (Heap.lt_size_of_get hblock)]
    rfl
  exact release_held hheld

end Input

section Clients

variable (fuel : Nat) (s : VfsState)

def sedSample : Bytes :=
  str "Hello World\nThis is a test\nSed is powerful\nLine number four\nAnother test line\n"

-- The answer, what is printed or written, and the state; `none` while a loop still runs.
def unixSed (script : Bytes) (inputFile outputFile : Option Bytes) :
    Outcome (Option (Int × Bytes × VfsState)) := do
  match ← readInput s inputFile sedSample with
  | (none, s) => .ok (some (1, [], s))
  | (some input, s) =>
    match ← sedCommand fuel script input.text (3 * input.size) with
    | .running => .ok none
    | .invalid =>
      let s ← release s input.data
      .ok (some (1, [], s))
    | .written output text =>
      let s := tokenised s input.data text
      let s ← match outputFile with
        | none => pure s
        | some path => Prod.snd <$> vfsWriteFile s path (.bytes output) output.length
      let s ← release s input.data
      .ok (some (0, output, s))

def awkSample : Bytes :=
  str "apple 5 red fresh\nbanana 3 yellow ripe\ncherry 8 red sweet\n" ++
    str "orange 6 orange juicy\ngrape 12 purple sweet\nkiwi 4 green sour\n"

-- The branches before the one for split: they read the line and its fields and print.
def awkBeforeSplit (script : Bytes) : Bool :=
  script == str "\x7b print \x7d" || script == str "\x7b print $0 \x7d" ||
    script == str "\x7b print NR, $0 \x7d" ||
    (str "\x7b print $").isPrefixOf script ||
    ["NF", "print NR", "length", "sum", "$2", "BEGIN", "END", "toupper", "tolower", "gsub", "sub",
      "match", "red", "yellow", "green", ">", "<", "=="].any fun w => occurs (str w) script

-- The copy of the line is freed while strtok may still point into it.
def copyFreed (t : Strtok) : StrtokNext := if t.next = .usedUp then .usedUp else .freed

def unixAwkSplitFieldsEnhanced (line : Bytes) (maxFields : Nat) :
    Outcome (Option (List Bytes × StrtokNext)) := do
  let split ← forTokens [32, 9] (fun fields => decide (fields.length < maxFields))
    (fun fields token t => .ok (some (fields ++ [token], t))) (maxFields + 1) [line] (line ++ [0])
  .ok (split.map fun p => (p.1, copyFreed p.2))

def unixAwkSplitDemo (line : Bytes) : Outcome (Option StrtokNext) := do
  let split ← forTokens [32] (fun _ : Unit => true) (fun st _ t => .ok (some (st, t)))
    (line.length + 2) () (line ++ [0])
  .ok (split.map fun p => copyFreed p.2)

-- fields[0] has 256 bytes. strtok goes on where the last search in a copy ended.
def awkLine (script : Bytes) (records : Nat) (line : Bytes) (t : Strtok) :
    Outcome (Option (Nat × Strtok)) :=
  if 256 ≤ line.length then .error .bufferOverflow
  else do
    match ← unixAwkSplitFieldsEnhanced line 10 with
    | none => .ok none
    | some (_, next) =>
      if !awkBeforeSplit script && occurs (str "split") script then do
        let next ← unixAwkSplitDemo line
        .ok (next.map fun next => (records + 1, { t with next := next }))
      else .ok (some (records + 1, { t with next := next }))

def unixAwk (script : Bytes) (inputFile : Option Bytes) :
    Outcome (Option (Int × Nat × VfsState)) := do
  match ← readInput s inputFile awkSample with
  | (none, s) => .ok (some (1, 0, s))
  | (some input, s) =>
    match ← forTokens [newline] (fun _ => true) (awkLine script) fuel 0 input.text with
    | none => .ok none
    | some (records, t) =>
      let s ← release (tokenised s input.data t.text) input.data
      .ok (some (0, records, s))

def grepMatches (pattern line : Bytes) (ignoreCase invertMatch : Bool) : Bool :=
  xor invertMatch
    (if ignoreCase then occurs (pattern.map toLower) (line.map toLower) else occurs pattern line)

-- The number of the line, and the lines printed, with their numbers where these are asked for.
def grepLine (pattern : Bytes) (lineNumbers ignoreCase invertMatch : Bool)
    (st : Nat × List (Option Nat × Bytes)) (line : Bytes) (t : Strtok) :
    Outcome (Option ((Nat × List (Option Nat × Bytes)) × Strtok)) :=
  let printed :=
    if grepMatches pattern line ignoreCase invertMatch then
      st.2 ++ [(if lineNumbers then some st.1 else none, line)]
    else st.2
  .ok (some ((st.1 + 1, printed), t))

def unixGrepExtended (pattern inputFile : Bytes) (lineNumbers ignoreCase invertMatch : Bool) :
    Outcome (Option (Int × List (Option Nat × Bytes) × VfsState)) := do
  match ← readInput s (some inputFile) [] with
  | (none, s) => .ok (some (1, [], s))
  | (some input, s) =>
    match ← forTokens [newline] (fun _ => true)
        (grepLine pattern lineNumbers ignoreCase invertMatch) fuel (1, []) input.text with
    | none => .ok none
    | some (st, t) =>
      let s ← release (tokenised s input.data t.text) input.data
      .ok (some (0, st.2, s))

end Clients

end ZoraVM.Unix
