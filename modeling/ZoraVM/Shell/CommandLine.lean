import ZoraVM.Shell.Redirection

namespace ZoraVM.Shell

open Foundation Vfs Unix

variable {ω : Type}

section Parsing

def blanks : Bytes := [32, 9]
def ampersand : UInt8 := 38
def semicolon : UInt8 := 59
def lessThan : UInt8 := 60
def greaterThan : UInt8 := 62
def pipe : UInt8 := 124

-- The text in front of ">>" or ">", the file behind it, and append_mode.
def parseOutput (text : Bytes) : Bytes × Option Bytes × Bool :=
  match breakAt [greaterThan, greaterThan] text with
  | some (command, file) => (command, some (trim blanks file), true)
  | none =>
    match breakAt [greaterThan] text with
    | some (command, file) => (command, some (trim blanks file), false)
    | none => (text, none, false)

def dropInput (text : Bytes) : Bytes := text.takeWhile (· ≠ lessThan)

inductive Operator where
  | and
  | or
  deriving DecidableEq, Repr

def Operator.text : Operator → Bytes
  | .and => [ampersand, ampersand]
  | .or => [pipe, pipe]

def Operator.selects : Operator → Int → Bool
  | .and, status => status == 0
  | .or, status => status != 0

def firstOperator (part : Bytes) : Option (Operator × Bytes × Bytes) :=
  match breakAt Operator.and.text part, breakAt Operator.or.text part with
  | some (first, second), none => some (.and, first, second)
  | some (first, second), some (first', second') =>
    if first.length < first'.length then some (.and, first, second) else some (.or, first', second')
  | none, some (first, second) => some (.or, first, second)
  | none, none => none

-- A single '&' ends the command; the background job is run like any other.
def foreground (part : Bytes) : Bytes :=
  match breakAt [ampersand] part with
  | some (command, rest) => if rest.head? = some ampersand then part else trimRight blanks command
  | none => part

end Parsing

section Execution

variable (sys : System ω)

def executeCommandWithParsing (text : Bytes) (w : World ω) : Outcome (Ran ω) := do
  let (command, outputFile, appendMode) := parseOutput text
  let (args, t) ← firstWords blanks 255 (dropInput command)
  if args = [] then .ok { idle 1 w with strtok := some (released t) }
  else do
    let r ← executeCommandWithRedirection sys args outputFile appendMode w
    .ok { r with strtok := some (r.strtok.getD (released t)) }

def pipeFile : Bytes := str "/tmp/pipe_data"

-- second_args has 256 places, and the terminator goes behind the file.
def executeWithFile (args : List Bytes) (w : World ω) : Outcome (Ran ω) :=
  if 255 ≤ args.length then .error .bufferOverflow else executePlain sys (args ++ [pipeFile]) w

def executeReader (args : List Bytes) (w : World ω) : Outcome (Ran ω) :=
  match args with
  | [] => .ok (idle 0 w)
  | name :: rest =>
    if name = str "grep" then
      if rest ≠ [] then executeWithFile sys args w else .ok (idle 0 w)
    else if name ∈ [str "head", str "tail", str "cat", str "less"] then executeWithFile sys args w
    else executeCommandWithRedirection sys args none false w

def executeWriter (args : List Bytes) (w : World ω) : Outcome (Ran ω) :=
  if args = [] then .ok (idle 0 w)
  else executeCommandWithRedirection sys args (some pipeFile) false w

-- The result is the 0 it starts with. strtok is last called by vfs_delete_file.
def executePiped (first second : Bytes) (w : World ω) : Outcome (Ran ω) := do
  let (firstArgs, _) ← firstWords blanks 255 (trimLeft blanks first)
  let writer ← executeWriter sys firstArgs w
  let (secondArgs, _) ← firstWords blanks 255 (trimLeft blanks second)
  let reader ← executeReader sys secondArgs writer.world
  let t ← findStrtok reader.world.vfs pipeFile
  let (_, s) ← vfsDeleteFile reader.world.vfs pipeFile
  .ok ⟨0, { reader.world with vfs := s }, t, writer.executed ++ reader.executed⟩

def executePipeline (text : Bytes) (w : World ω) : Outcome (Ran ω) :=
  match breakAt [pipe] text with
  | some (first, second) => executePiped sys first second w
  | none => executeCommandWithParsing sys text w

def executeConditional (part : Bytes) (w : World ω) : Outcome (Ran ω) :=
  match firstOperator part with
  | none => executePipeline sys part w
  | some (operator, first, second) => do
    let r ← executePipeline sys first w
    if operator.selects r.status then do
      let r' ← executePipeline sys (trimLeft blanks second) r.world
      .ok { r' with executed := r.executed ++ r'.executed, strtok := r'.strtok.or r.strtok }
    else .ok r

def Ran.before (st r : Ran ω) : Ran ω :=
  ⟨r.status, r.world, r.strtok.or st.strtok, st.executed ++ r.executed⟩

def executePart (st : Ran ω) (part : Bytes) (t : Strtok) : Outcome (Option (Ran ω × Strtok)) :=
  let part := trim blanks part
  if part = [] then .ok (some (st, t))
  else do
    let r ← executeConditional sys (foreground part) st.world
    .ok (some (st.before r, r.strtok.getD t))

-- free(text): a cursor that no command has moved points into it.
def finished (ended : Ran ω × Strtok) : Ran ω :=
  { ended.1 with strtok := some (if ended.1.strtok.isSome then ended.2 else released ended.2) }

def parseAndExecuteCommandLine (fuel : Nat) (line : Bytes) (w : World ω) :
    Outcome (Option (Ran ω)) := do
  let ended ← forTokens [semicolon] (fun _ => true) (executePart sys) fuel (idle 0 w) (line ++ [0])
  .ok (ended.map finished)

end Execution

section Variables

def dollar : UInt8 := 36

def maxVarName : Nat := 64

def isNameByte (c : UInt8) : Bool :=
  decide (48 ≤ c ∧ c ≤ 57) || decide (65 ≤ c ∧ c ≤ 90) || decide (97 ≤ c ∧ c ≤ 122) || c == 95

def variableName (src : Bytes) : Bytes × Bytes :=
  match src with
  | 123 :: src =>
    let name := (src.take (maxVarName - 1)).takeWhile (· ≠ 125)
    let rest := src.drop name.length
    (name, if rest.head? = some 125 then rest.tail else rest)
  | _ =>
    let name := (src.take (maxVarName - 1)).takeWhile isNameByte
    (name, src.drop name.length)

def expandFrom (env : List (Bytes × Bytes)) : Nat → Bytes → Nat → Bytes
  | 0, _, _ => []
  | _, _, 0 => []
  | _, [], _ => []
  | fuel + 1, c :: src, remaining + 1 =>
    if c = 36 then
      let (name, rest) := variableName src
      match env.lookup name with
      | some value =>
        if value.length ≤ remaining + 1 then
          value ++ expandFrom env fuel rest (remaining + 1 - value.length)
        else expandFrom env fuel rest (remaining + 1)
      | none => expandFrom env fuel rest (remaining + 1)
    else c :: expandFrom env fuel src remaining

def expandVariables (env : List (Bytes × Bytes)) (input : Bytes) (outputSize : Nat) : Bytes :=
  expandFrom env input.length input (outputSize - 1)

def addToHistory (command : Bytes) (history : List Bytes) : List Bytes :=
  if history.length < 100 then history ++ [command] else history.tail ++ [command]

end Variables

section Sourcing

variable (sys : System ω)

def handleCommand (fuel : Nat) (command : Bytes) (w : World ω) : Outcome (Option (Ran ω)) :=
  let trimmed := trimLeft blanks command
  if trimmed = [] then .ok (some (idle 0 w))
  else
    let w := { w with history := addToHistory trimmed w.history }
    parseAndExecuteCommandLine sys fuel (expandVariables w.env trimmed 1024) w

-- strtok cuts the block of the file itself, as long as the cursor is there.
def sourceLine (fuel p : Nat) (st : Ran ω) (line : Bytes) (t : Strtok) :
    Outcome (Option (Ran ω × Strtok)) :=
  if line.head? = some 35 then .ok (some (st, t))
  else do
    let vfs := if st.strtok.isSome then st.world.vfs else tokenised st.world.vfs (some p) t.text
    match ← handleCommand sys fuel line { st.world with vfs := vfs } with
    | none => .ok none
    | some r => .ok (some (st.before r, r.strtok.getD t))

def sourceBlock (fuel p : Nat) (w : World ω) : Outcome (Option (Ran ω)) := do
  let script ← blockText w.vfs.blocks (some p)
  let ended ← forTokens [newline] (fun _ => true) (sourceLine sys fuel p) fuel (idle 0 w) script
  match ended with
  | none => .ok none
  | some ended => do
    let s ← release ended.1.world.vfs (some p)
    .ok (some { finished ended with world := { ended.1.world with vfs := s } })

def sourceCommand (fuel : Nat) (args : List Bytes) (w : World ω) : Outcome (Option (Ran ω)) :=
  match args with
  | _ :: path :: _ => do
    let t ← findStrtok w.vfs path
    match ← vfsReadFile w.vfs path with
    | (some (some p, _), s) => sourceBlock sys fuel p { w with vfs := s }
    | (_, s) => .ok (some { idle 0 { w with vfs := s } with strtok := t })
  | _ => .ok (some (idle 0 w))

end Sourcing

end ZoraVM.Shell
