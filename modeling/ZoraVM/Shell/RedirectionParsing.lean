import ZoraVM.Shell.CommandLine

namespace ZoraVM.Shell

open Foundation

section Model

structure Parsed where
  args : List Bytes
  inputFile : Option Bytes
  outputFile : Option Bytes
  appendMode : Bool
  deriving DecidableEq, Repr

-- The search for '<' ends where the one for '>' has put a NUL.
def parseInput (command : Bytes) : Bytes × Option Bytes :=
  match breakAt [lessThan] command with
  | some (front, file) => (front, some (trim blanks file))
  | none => (command, none)

def parseRedirections (text : Bytes) : Outcome (Parsed × Strtok) := do
  let (command, outputFile, appendMode) := parseOutput text
  let (front, inputFile) := parseInput command
  let (args, t) ← firstWords blanks 255 front
  .ok (⟨args, inputFile, outputFile, appendMode⟩, t)

theorem parseInput_fst (command : Bytes) : (parseInput command).1 = dropInput command := by
  rw [parseInput, dropInput]
  cases hbreak : breakAt [lessThan] command with
  | none =>
    by_cases hin : lessThan ∈ command
    · obtain ⟨front, rest, rfl, hfront⟩ := List.eq_append_cons_of_mem hin
      have hfirst := @breakAt_append lessThan [] front hfront rest
      cases hbreak.symm.trans hfirst
    · refine (List.takeWhile_eq_self_iff.mpr fun c hc => ?_).symm
      simpa using ne_of_mem_of_not_mem hc hin
  | some parts =>
    obtain ⟨front, file⟩ := parts
    obtain ⟨rfl, hfront⟩ := breakAt_byte hbreak
    have hall : ∀ c ∈ front, decide (c ≠ lessThan) = true := fun c hc => by
      simpa using ne_of_mem_of_not_mem hc hfront
    rw [List.takeWhile_append_of_pos hall]
    simp

theorem executeCommandWithParsing_parsed {ω : Type} (sys : System ω) (text : Bytes) (w : World ω) :
    executeCommandWithParsing sys text w = (parseRedirections text).bind fun found =>
      if found.1.args = [] then .ok { idle 1 w with strtok := some (released found.2) }
      else (executeCommandWithRedirection sys found.1.args found.1.outputFile found.1.appendMode
        w).bind fun r => .ok { r with strtok := some (r.strtok.getD (released found.2)) } := by
  simp only [executeCommandWithParsing, parseRedirections, parseInput_fst, bind, Except.bind]
  cases firstWords blanks 255 (dropInput (parseOutput text).1) with
  | error e => rfl
  | ok found => rfl

end Model

section Lines

inductive Order where
  | inputFirst
  | outputFirst
  deriving DecidableEq, Repr

def outputOperator (append : Bool) : Bytes :=
  if append then [greaterThan, greaterThan] else [greaterThan]

def redirectedLine (command input output : Bytes) (append : Bool) : Order → Bytes
  | .inputFirst => command ++ lessThan :: input ++ (outputOperator append ++ output)
  | .outputFirst => command ++ (outputOperator append ++ (output ++ lessThan :: input))

def NoOperators (text : Bytes) : Prop := lessThan ∉ text ∧ greaterThan ∉ text ∧ 0 ∉ text

structure NameIn (text name : Bytes) : Prop where
  padded : ∃ front back, (∀ c ∈ front, c ∈ blanks) ∧ (∀ c ∈ back, c ∈ blanks) ∧
    text = front ++ (name ++ back)
  solid : ∀ c ∈ name, c ∉ blanks
  plain : NoOperators name

def Passes (text : Bytes) (p : Parsed) : Prop :=
  p.args ≠ [] ∧ ∃ t, parseRedirections text = .ok (p, t)

end Lines

section Trimmed

variable {text name : Bytes}

theorem rdropWhile_append_delims {delims back rest : Bytes} (hback : ∀ c ∈ back, c ∈ delims)
    (hrest : ∀ c ∈ rest, c ∉ delims) : (rest ++ back).rdropWhile (· ∈ delims) = rest := by
  have hkept : rest.reverse.dropWhile (· ∈ delims) = rest.reverse := by
    refine List.dropWhile_eq_self_iff.mpr fun hpos => ?_
    have hmem := List.getElem_mem hpos
    simpa using hrest _ (List.mem_reverse.mp hmem)
  rw [List.rdropWhile, List.reverse_append, List.dropWhile_append_of_pos (by simpa using hback),
    hkept, List.reverse_reverse]

theorem trim_padded {delims front back name : Bytes} (hfront : ∀ c ∈ front, c ∈ delims)
    (hback : ∀ c ∈ back, c ∈ delims) (hname : ∀ c ∈ name, c ∉ delims) :
    trim delims (front ++ (name ++ back)) = name := by
  cases name with
  | nil =>
    have hall : trimLeft delims (front ++ back) = [] := by
      rw [trimLeft, List.dropWhile_eq_nil_iff]
      intro c hc
      rcases List.mem_append.mp hc with hc | hc
      · simpa using hfront c hc
      · simpa using hback c hc
    rw [List.nil_append, trim, hall, trimRight]
  | cons c rest =>
    have hc : c ∉ delims := hname c List.mem_cons_self
    have hlast : (rest ++ back).rdropWhile (· ∈ delims) = rest :=
      rdropWhile_append_delims hback fun b hb => hname b (List.mem_cons_of_mem c hb)
    rw [trim, List.cons_append, trimLeft_append hfront hc, trimRight, hlast]

theorem NameIn.trim_eq (h : NameIn text name) : trim blanks text = name := by
  obtain ⟨front, back, hfront, hback, rfl⟩ := h.padded
  exact trim_padded hfront hback h.solid

theorem NameIn.noOperators (h : NameIn text name) : NoOperators text := by
  obtain ⟨front, back, hfront, hback, rfl⟩ := h.padded
  have hplain : ∀ c, c ∉ blanks → c ∉ name → c ∉ front ++ (name ++ back) := by
    intro c hc hname hin
    rcases List.mem_append.mp hin with hin | hin
    · exact hc (hfront c hin)
    · rcases List.mem_append.mp hin with hin | hin
      · exact hname hin
      · exact hc (hback c hin)
  exact ⟨hplain _ (by decide) h.plain.1, hplain _ (by decide) h.plain.2.1,
    hplain _ (by decide) h.plain.2.2⟩

end Trimmed

section Parsing

variable {command input output i o : Bytes} {append : Bool} {ws : List Bytes}

theorem breakAt_double_none {c : UInt8} {front rest : Bytes} (hfront : c ∉ front) (hrest : c ∉ rest) :
    breakAt [c, c] (front ++ c :: rest) = none := by
  cases hbreak : breakAt [c, c] (front ++ c :: rest) with
  | none => rfl
  | some parts =>
    have hsplit : front ++ c :: rest = parts.1 ++ ([c, c] ++ parts.2) := breakAt_some hbreak
    have hcount := congrArg (List.count c) hsplit
    simp [List.count_eq_zero_of_not_mem hfront, List.count_eq_zero_of_not_mem hrest] at hcount
    omega

theorem parseOutput_operator {front : Bytes} (hfront : greaterThan ∉ front)
    (houtput : greaterThan ∉ output) (append : Bool) :
    parseOutput (front ++ (outputOperator append ++ output)) =
      (front, some (trim blanks output), append) := by
  cases append with
  | true =>
    have hbreak : breakAt [greaterThan, greaterThan] (front ++ (outputOperator true ++ output)) =
        some (front, output) := breakAt_append hfront output
    rw [parseOutput, hbreak]
  | false =>
    have hdouble : breakAt [greaterThan, greaterThan] (front ++ (outputOperator false ++ output)) =
        none := breakAt_double_none hfront houtput
    have hbreak : breakAt [greaterThan] (front ++ (outputOperator false ++ output)) =
        some (front, output) := breakAt_append hfront output
    rw [parseOutput, hdouble, hbreak]

theorem parseInput_operator (hcommand : lessThan ∉ command) (input : Bytes) :
    parseInput (command ++ lessThan :: input) = (command, some (trim blanks input)) := by
  have hbreak : breakAt [lessThan] (command ++ lessThan :: input) = some (command, input) :=
    breakAt_append hcommand input
  rw [parseInput, hbreak]

theorem parseInput_plain (hcommand : lessThan ∉ command) : parseInput command = (command, none) := by
  rw [parseInput, breakAt_of_not_mem hcommand]

variable (hcommand : NoOperators command) (hi : NameIn input i) (ho : NameIn output o)

include hcommand hi ho

theorem input_first_parsed (append : Bool) :
    ∃ t, parseRedirections (redirectedLine command input output append .inputFirst) =
      .ok (⟨(words blanks command).take 255, some i, some o, append⟩, t) := by
  obtain ⟨hless, hgreater, hzero⟩ := hcommand
  have hfront : greaterThan ∉ command ++ lessThan :: input := by
    have hother : greaterThan ≠ lessThan := by decide
    simp [hgreater, hother, hi.noOperators.2.1]
  obtain ⟨t, hwords, _⟩ := firstWords_eq (show 0 ∉ blanks by decide) 255 hzero
  refine ⟨t, ?_⟩
  rw [redirectedLine, parseRedirections, parseOutput_operator hfront ho.noOperators.2.1]
  simp [bind, Except.bind, parseInput_operator hless, hwords, hi.trim_eq, ho.trim_eq]

theorem output_first_parsed (append : Bool) :
    ∃ t, parseRedirections (redirectedLine command input output append .outputFirst) =
      .ok (⟨(words blanks command).take 255, none,
        some (trim blanks (output ++ lessThan :: input)), append⟩, t) := by
  obtain ⟨hless, hgreater, hzero⟩ := hcommand
  have hbehind : greaterThan ∉ output ++ lessThan :: input := by
    have hother : greaterThan ≠ lessThan := by decide
    simp [ho.noOperators.2.1, hother, hi.noOperators.2.1]
  obtain ⟨t, hwords, _⟩ := firstWords_eq (show 0 ∉ blanks by decide) 255 hzero
  refine ⟨t, ?_⟩
  rw [redirectedLine, parseRedirections, parseOutput_operator hgreater hbehind]
  simp [bind, Except.bind, parseInput_plain hless, hwords]

theorem redirections_parsed_iff (hws : words blanks command ≠ []) (append : Bool) (order : Order) :
    Passes (redirectedLine command input output append order)
        ⟨words blanks command, some i, some o, append⟩ ↔
      order = .inputFirst ∧ (words blanks command).length ≤ 255 := by
  cases order with
  | inputFirst =>
    obtain ⟨t, hparsed⟩ := input_first_parsed hcommand hi ho append
    constructor
    · rintro ⟨_, t', hpassed⟩
      rw [hparsed, Except.ok.injEq, Prod.mk.injEq, Parsed.mk.injEq] at hpassed
      exact ⟨rfl, by simpa using hpassed.1.1⟩
    · rintro ⟨_, hfew⟩
      rw [List.take_of_length_le hfew] at hparsed
      exact ⟨hws, t, hparsed⟩
  | outputFirst =>
    obtain ⟨t, hparsed⟩ := output_first_parsed hcommand hi ho append
    refine iff_of_false ?_ fun h => by cases h.1
    rintro ⟨_, t', hpassed⟩
    rw [hparsed, Except.ok.injEq, Prod.mk.injEq, Parsed.mk.injEq] at hpassed
    cases hpassed.1.2.1

end Parsing

section Concrete

theorem name_in : NameIn (str " in.txt ") (str "in.txt") :=
  ⟨⟨str " ", str " ", by decide +kernel, by decide +kernel, rfl⟩, by decide +kernel, by decide,
    by decide, by decide⟩

theorem name_out : NameIn (str " out") (str "out") :=
  ⟨⟨str " ", [], by decide +kernel, by decide +kernel, rfl⟩, by decide +kernel, by decide, by decide,
    by decide⟩

theorem redirections_parsed_iff_append :
    Passes (redirectedLine (str "cat -n ") (str " in.txt ") (str " out") true .inputFirst)
      ⟨words blanks (str "cat -n "), some (str "in.txt"), some (str "out"), true⟩ :=
  (redirections_parsed_iff ⟨by decide, by decide, by decide⟩ name_in name_out (by decide) true
    .inputFirst).mpr ⟨rfl, by decide⟩

theorem output_before_input_misparsed :
    ¬ ∀ (command input output i o : Bytes) (append : Bool) (order : Order), NoOperators command →
      NameIn input i → NameIn output o → words blanks command ≠ [] →
      Passes (redirectedLine command input output append order)
        ⟨words blanks command, some i, some o, append⟩ := by
  intro hall
  have hplain : NoOperators (str "cat ") := ⟨by decide, by decide, by decide⟩
  obtain ⟨_, t, hpassed⟩ := hall (str "cat ") _ _ _ _ false .outputFirst hplain name_in name_out
    (by decide)
  obtain ⟨t', hparsed⟩ := output_first_parsed hplain name_in name_out false
  rw [hparsed, Except.ok.injEq, Prod.mk.injEq, Parsed.mk.injEq] at hpassed
  cases hpassed.1.2.1

end Concrete

end ZoraVM.Shell
