import ZoraVM.Foundation.Words
import ZoraVM.Unix.TextProc

namespace ZoraVM.Shell

open Foundation Vfs Unix

variable {ω : Type}

section Types

-- What a command may see and change; `rest` is what the shell itself never looks at.
structure World (ω : Type) where
  vfs : VfsState
  env : List (Bytes × Bytes)
  history : List Bytes
  scriptExecutionDepth : Int
  syntaxHighlight : Bool
  redirectBuffer : Bytes
  redirectActive : Bool
  rest : ω

-- `strtok` is where the next search begins; `none` where the command has not called strtok.
structure Answer (ω : Type) where
  printed : Bytes
  world : World ω
  strtok : Option Strtok

abbrev Handler (ω : Type) := List Bytes → World ω → Answer ω

-- The command table, the script interpreters, and what the host does with the temporary file.
structure System (ω : Type) where
  commandTable : List (Bytes × Option (Handler ω))
  interpret : Bytes → List Bytes → World ω → Bool × Answer ω
  tempOpens : World ω → Bool
  tempReads : World ω → Bool

end Types

section Lookup

def released (t : Strtok) : Strtok := { t with next := copyFreed t }

-- vfs_find_node runs strtok over a copy on its stack; it answers "/" without that.
def findStrtok (s : VfsState) (path : Bytes) : Outcome (Option Strtok) :=
  if path = [slash] then .ok none
  else
    let copy := clip 256 path
    let names := if copy.head? = some slash then copy.tail else copy
    Option.map (fun ended => released ended.2) <$>
      forTokens [slash] Option.isSome
        (fun current name t =>
          .ok (some (current.bind fun n => Forest.childNamed Attr.name s.nodes n name, t)))
        (names.length + 3) (some s.root) (names ++ [0])

theorem findStrtok_eq (s : VfsState) {path : Bytes} (hpath : path ≠ [slash]) :
    ∃ t, findStrtok s path = .ok (some (released t)) := by
  simp only [findStrtok, if_neg hpath]
  generalize hnames : (if (clip 256 path).head? = some slash then (clip 256 path).tail
    else clip 256 path) = names
  have hzero : 0 ∈ names ++ [0] := by simp
  have hfuel : (names ++ [0]).length + 1 < names.length + 3 := by
    rw [List.length_append, List.length_singleton]
    omega
  obtain ⟨current, t, hrun⟩ := @forTokens_returns (Option Nat) [slash] Option.isSome
    (fun current name t =>
      .ok (some (current.bind fun n => Forest.childNamed Attr.name s.nodes n name, t)))
    (by decide) (fun _ _ _ => ⟨_, rfl⟩) _ (some s.root) _ hzero hfuel
  exact ⟨t, by rw [hrun]; rfl⟩

theorem findStrtok_total (s : VfsState) (path : Bytes) : ∃ t, findStrtok s path = .ok t := by
  by_cases hpath : path = [slash]
  · exact ⟨none, if_pos hpath⟩
  · obtain ⟨t, ht⟩ := findStrtok_eq s hpath
    exact ⟨_, ht⟩

end Lookup

section Scripts

variable (sys : System ω)

def scriptLanguages : List (Bytes × Bytes) :=
  [(str ".lua", str "Lua"), (str ".py", str "Python"), (str ".pl", str "Perl")]

def scriptPath (command extension : Bytes) : Bytes := clip 512 (str "/bin/" ++ (command ++ extension))

def executingScript (language path : Bytes) : Bytes :=
  str "Executing " ++ (language ++ (str " script: " ++ (path ++ [newline])))

def tryLanguages (args : List Bytes) (w : World ω) :
    List (Bytes × Bytes) → Option Strtok → Outcome (Bool × Answer ω)
  | [], t => .ok (false, ⟨[], w, t⟩)
  | (extension, language) :: languages, t => do
    let path := scriptPath (args.headD []) extension
    let found ← vfsFindNode w.vfs path
    let here ← findStrtok w.vfs path
    match found with
    | none => tryLanguages args w languages (here.or t)
    | some _ =>
      let (ran, answer) := sys.interpret path args w
      .ok (ran, { answer with
        printed := executingScript language path ++ answer.printed
        strtok := answer.strtok.or (here.or t) })

def deeper (levels : Int) (w : World ω) : World ω :=
  { w with scriptExecutionDepth := w.scriptExecutionDepth + levels }

def depthReached : Bytes :=
  str "Error: Script execution depth limit reached (possible infinite recursion)\n"

def tryExecuteScriptCommand (args : List Bytes) (w : World ω) : Outcome (Bool × Answer ω) :=
  if 5 < w.scriptExecutionDepth then .ok (false, ⟨depthReached, w, none⟩)
  else do
    let (ran, answer) ← tryLanguages sys args (deeper 1 w) scriptLanguages none
    .ok (ran, { answer with world := deeper (-1) answer.world })

end Scripts

section Dispatch

variable (sys : System ω)

def escape : UInt8 := 27

def ansi (code : Bytes) : Bytes := escape :: 91 :: code

def terminalPrintError (text : Bytes) : Bytes := ansi (str "91m") ++ (text ++ ansi (str "0m"))

def terminalPrintCommand (w : World ω) (text : Bytes) : Bytes :=
  if w.syntaxHighlight then ansi (str "1m") ++ (ansi (str "96m") ++ (text ++ ansi (str "0m")))
  else text

def unknownCommand (w : World ω) (name : Bytes) : Bytes :=
  terminalPrintError (str "Unknown command: '") ++ (name ++ (terminalPrintError (str "'\n") ++
    (str "Type " ++ (terminalPrintCommand w (str "help") ++ str " to see available commands.\n"))))

def executeSimpleCommandWithExitCode (args : List Bytes) (w : World ω) : Outcome (Int × Answer ω) :=
  match args with
  | [] => .ok (0, ⟨[], w, none⟩)
  | name :: _ =>
    match sys.commandTable.lookup name with
    | some (some handler) => .ok (0, handler args w)
    | some none => .ok (1, ⟨[], w, none⟩)
    | none => do
      let (ran, answer) ← tryExecuteScriptCommand sys args w
      if ran then .ok (0, answer)
      else
        let message := unknownCommand answer.world name
        .ok (1, { answer with printed := answer.printed ++ message })

end Dispatch

section Runs

structure Executed (ω : Type) where
  args : List Bytes
  world : World ω
  status : Int
  output : Bytes

structure Ran (ω : Type) where
  status : Int
  world : World ω
  strtok : Option Strtok
  executed : List (Executed ω)

def idle (status : Int) (w : World ω) : Ran ω := ⟨status, w, none, []⟩

end Runs

section Concrete

def sayHi : Handler Unit := fun _ w => ⟨str "hi", w, none⟩

def smallSystem : System Unit where
  commandTable := [(str "hi", some sayHi), (str "cat", some sayHi), (str "off", none)]
  interpret := fun _ _ w => (false, ⟨[], w, none⟩)
  tempOpens := fun _ => true
  tempReads := fun _ => true

def loggedIn (s : VfsState) : World Unit := ⟨s, [], [], 0, false, [], false, ()⟩

end Concrete

end ZoraVM.Shell
