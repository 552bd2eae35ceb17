import ZoraVM.Shell.SimpleCommands

namespace ZoraVM.Shell

open Foundation Vfs Unix

variable {ω : Type}

section Statements

structure Stage (c : Bytes) : Prop where
  plain : NoRedirection c
  no_pipe : pipe ∉ c
  word : words blanks c ≠ []

-- One run for each stage: its own words, and behind them a file that delivers what the stage before
-- has put out.
def Chained : List Bytes → Option Bytes → List (Executed ω) → Prop
  | [], _, [] => True
  | c :: cs, none, e :: es => e.args = words blanks c ∧ Chained cs (some e.output) es
  | c :: cs, some input, e :: es =>
    (∃ file, e.args = words blanks c ++ [file] ∧ readBytes e.world.vfs file = some input) ∧
      Chained cs (some e.output) es
  | _, _, _ => False

def RunsPipeline (sys : System ω) (cs : List Bytes) (w : World ω) : Prop :=
  ∃ r, executePipeline sys ([pipe].intercalate cs) w = .ok r ∧ Chained cs none r.executed ∧
    r.executed.getLast?.map Executed.status = some r.status

def ReadsFile (args : List Bytes) : Prop :=
  match args with
  | [] => False
  | name :: rest => name = str "grep" ∧ rest ≠ [] ∨
      name ≠ str "grep" ∧ name ∈ [str "head", str "tail", str "cat", str "less"]

def redirecting (w : World ω) : World ω := { w with redirectActive := true, redirectBuffer := [] }

def output (answer : Answer ω) : Bytes := answer.printed ++ answer.world.redirectBuffer

def Captured (sys : System ω) (opened : Bool) (answer : Answer ω) : Prop :=
  if fits sys opened answer then answer.printed.head? ≠ some endOfText
  else answer.world.redirectBuffer ≠ []

def CapturedWhole (sys : System ω) (opened : Bool) (answer : Answer ω) : Prop :=
  if fits sys opened answer then answer.world.redirectBuffer = [] ∧ endOfText ∉ answer.printed
  else answer.printed = []

def Delivered (sys : System ω) (opened : Bool) (answer : Answer ω) (s : VfsState) : Prop :=
  Captured sys opened answer ∧ MayWrite s pipeFile ∧ CapturedWhole sys opened answer ∧
      MayRead s pipeFile ∨
    (Captured sys opened answer → ¬ MayWrite s pipeFile) ∧ readBytes s pipeFile = some (output answer)

def PipesInto (sys : System ω) (c₁ c₂ : Bytes) (w : World ω) : Prop :=
  (words blanks c₁).length ≤ 255 ∧ (words blanks c₂).length ≤ 254 ∧ ReadsFile (words blanks c₂) ∧
    (∃ status answer s, executeCapturing sys (words blanks c₁) (redirecting w) = .ok (status, answer) ∧
      createMissing answer.world.vfs pipeFile = .ok s ∧
      Delivered sys (sys.tempOpens (redirecting w)) answer s) ∧
    ∃ writer reader gone,
      executeCommandWithRedirection sys (words blanks c₁) (some pipeFile) false w = .ok writer ∧
      executePlain sys (words blanks c₂ ++ [pipeFile]) writer.world = .ok reader ∧
      reader.status = 0 ∧ vfsDeleteFile reader.world.vfs pipeFile = .ok gone

def PipelineHoldsWhen (sys : System ω) (w : World ω) : List Bytes → Prop
  | [c] => (words blanks c).length ≤ 255 ∧ ∃ r, executePlain sys (words blanks c) w = .ok r
  | [c₁, c₂] => PipesInto sys c₁ c₂ w
  | _ => False

end Statements

section Output

variable {sys : System ω} {opened : Bool} {answer : Answer ω} {w : World ω}

theorem captured_iff : Captured sys opened answer ↔ (capture sys opened answer).redirectBuffer ≠ [] := by
  rw [Captured, buffer_capture]
  by_cases hfits : fits sys opened answer = true
  · obtain ⟨c, o, ho⟩ := List.exists_cons_of_ne_nil (printed_ne_nil hfits)
    by_cases hc : c = endOfText <;> simp [hfits, ho, hc]
  · simp [hfits]

theorem capturedWhole_iff : CapturedWhole sys opened answer ↔
    output answer = (capture sys opened answer).redirectBuffer := by
  rw [CapturedWhole, buffer_capture, output]
  by_cases hfits : fits sys opened answer = true
  · rw [if_pos hfits, if_pos hfits]
    constructor
    · rintro ⟨hnone, hend⟩
      rw [hnone, List.append_nil]
      exact takeWhile_eq_append.mpr ⟨rfl, hend⟩
    · intro h
      have hlen := congrArg List.length h
      have hle := (List.takeWhile_sublist (· ≠ endOfText) (l := answer.printed)).length_le
      rw [List.length_append] at hlen
      have hnone : answer.world.redirectBuffer = [] := List.length_eq_zero_iff.mp (by omega)
      rw [hnone, List.append_nil] at h
      exact ⟨hnone, ((@takeWhile_eq_append [] answer.printed).mp h).2⟩
  · rw [if_neg hfits, if_neg hfits, List.append_left_eq_self]

theorem delivered_iff {stored : Bool} {after : World ω} {t : Option Strtok}
    (h : storeBuffer (capture sys opened answer) pipeFile = .ok (stored, after, t)) :
    ∃ s, createMissing answer.world.vfs pipeFile = .ok s ∧
      (readBytes after.vfs pipeFile = some (output answer) ↔ Delivered sys opened answer s) := by
  obtain ⟨s, hmade, hstored⟩ := storeBuffer_ok h
  rw [vfs_capture] at hmade
  refine ⟨s, hmade, ?_⟩
  rw [Delivered, captured_iff, capturedWhole_iff]
  rcases hstored with ⟨hempty, hafter⟩ | ⟨hfull, r, hwrite, _⟩
  · simp [hempty, hafter]
  · by_cases hmay : MayWrite s pipeFile
    · obtain ⟨s', hcall, hread⟩ := write_read hmay hfull
      obtain ⟨_, rfl⟩ := Prod.mk.inj (Except.ok.inj (hcall.symm.trans hwrite))
      rw [hread]
      simp [hfull, hmay]
    · obtain ⟨_, hsame⟩ := write_refused hmay hwrite
      simp [hmay, hsame]

end Output

section Stages

variable {sys : System ω} {w : World ω} {c c₁ c₂ : Bytes} {cs : List Bytes} {r : Ran ω}

theorem length_chained {input : Option Bytes} {log : List (Executed ω)} (h : Chained cs input log) :
    log.length = cs.length := by
  induction cs generalizing input log with
  | nil =>
    cases log with
    | nil => rfl
    | cons e log => cases h
  | cons c cs ih =>
    cases log with
    | nil => cases input <;> cases h
    | cons e log =>
      cases input with
      | none => exact congrArg Nat.succ (ih h.2)
      | some input => exact congrArg Nat.succ (ih h.2)

theorem take_words : (words blanks c).take 255 = words blanks c ↔ (words blanks c).length ≤ 255 :=
  List.take_eq_self_iff _

theorem pipe_target (cwd : Bytes) : buildFullPath 512 cwd pipeFile = pipeFile := by
  have hroot : pipeFile.head? = some slash := by decide
  simp only [buildFullPath, hroot, if_true]
  decide

theorem executePiped_eq_ok {first second : Bytes} (hfirst : 0 ∉ first) (hsecond : 0 ∉ second) :
    executePiped sys first second w = .ok r ↔ ∃ writer reader t gone,
      executeWriter sys (commandArgs first) w = .ok writer ∧
      executeReader sys (commandArgs second) writer.world = .ok reader ∧
      findStrtok reader.world.vfs pipeFile = .ok t ∧
      vfsDeleteFile reader.world.vfs pipeFile = .ok gone ∧
      r = ⟨0, { reader.world with vfs := gone.2 }, t, writer.executed ++ reader.executed⟩ := by
  have hwords : ∀ text : Bytes, 0 ∉ text → ∃ t, firstWords blanks 255 (trimLeft blanks text) =
      .ok (commandArgs text, t) := by
    intro text htext
    obtain ⟨t, ht, _⟩ := firstWords_eq (show 0 ∉ blanks by decide) 255
      (fun h => htext (mem_trimLeft h) : 0 ∉ trimLeft blanks text)
    exact ⟨t, by rw [ht, words_trimLeft]; rfl⟩
  obtain ⟨t₁, h₁⟩ := hwords first hfirst
  obtain ⟨t₂, h₂⟩ := hwords second hsecond
  constructor
  · intro h
    obtain ⟨⟨args, _⟩, hargs, hrest⟩ := Outcome.bind_eq_ok.mp h
    obtain ⟨rfl, _⟩ := Prod.mk.inj (Except.ok.inj (h₁.symm.trans hargs))
    obtain ⟨writer, hwriter, hrest⟩ := Outcome.bind_eq_ok.mp hrest
    obtain ⟨⟨args, _⟩, hargs, hrest⟩ := Outcome.bind_eq_ok.mp hrest
    obtain ⟨rfl, _⟩ := Prod.mk.inj (Except.ok.inj (h₂.symm.trans hargs))
    obtain ⟨reader, hreader, hrest⟩ := Outcome.bind_eq_ok.mp hrest
    obtain ⟨t, ht, hrest⟩ := Outcome.bind_eq_ok.mp hrest
    obtain ⟨gone, hgone, hdone⟩ := Outcome.bind_eq_ok.mp hrest
    exact ⟨writer, reader, t, gone, hwriter, hreader, ht, hgone, (Except.ok.inj hdone).symm⟩
  · rintro ⟨writer, reader, t, gone, hwriter, hreader, ht, hgone, rfl⟩
    simp only [executePiped, h₁, h₂, hwriter, hreader, ht, hgone, bind, Except.bind]

theorem executeReader_file {args : List Bytes} (hreads : ReadsFile args) (hlen : args.length ≤ 254) :
    executeReader sys args w = executePlain sys (args ++ [pipeFile]) w := by
  have hroom : ¬ 255 ≤ args.length := by omega
  cases args with
  | nil => exact hreads.elim
  | cons name rest =>
    rcases hreads with ⟨rfl, hrest⟩ | ⟨hgrep, hname⟩
    · rw [executeReader, if_pos rfl, if_pos hrest, executeWithFile, if_neg hroom]
    · rw [executeReader, if_neg hgrep, if_pos hname, executeWithFile, if_neg hroom]

theorem executeReader_cases {args : List Bytes} (h : executeReader sys args w = .ok r) :
    r.executed = [] ∨ (∃ status output, r.executed = [⟨args, w, status, output⟩]) ∨
      ReadsFile args ∧ args.length ≤ 254 ∧ executePlain sys (args ++ [pipeFile]) w = .ok r := by
  cases args with
  | nil =>
    obtain rfl := Except.ok.inj h
    exact .inl rfl
  | cons name rest =>
    have hfile : ∀ r, executeWithFile sys (name :: rest) w = .ok r → (name :: rest).length ≤ 254 ∧
        executePlain sys (name :: rest ++ [pipeFile]) w = .ok r := by
      intro r hr
      rw [executeWithFile] at hr
      split at hr
      · cases hr
      · exact ⟨by omega, hr⟩
    rw [executeReader] at h
    split at h
    · next hgrep =>
      split at h
      · next hrest => exact .inr (.inr ⟨.inl ⟨hgrep, hrest⟩, hfile r h⟩)
      · obtain rfl := Except.ok.inj h
        exact .inl rfl
    · next hgrep =>
      split at h
      · next hname => exact .inr (.inr ⟨.inr ⟨hgrep, hname⟩, hfile r h⟩)
      · obtain ⟨output, hone⟩ := executed_plain h
        exact .inr (.inl ⟨r.status, output, hone⟩)

theorem executeWriter_eq {args : List Bytes} (hargs : args ≠ []) :
    executeWriter sys args w = executeCommandWithRedirection sys args (some pipeFile) false w :=
  if_neg hargs

theorem executeWriter_ok {args : List Bytes} (hargs : args ≠ [])
    (h : executeWriter sys args w = .ok r) :
    ∃ status answer stored t, executeCapturing sys args (redirecting w) = .ok (status, answer) ∧
      storeBuffer (capture sys (sys.tempOpens (redirecting w)) answer) pipeFile =
        .ok (stored, r.world, t) ∧
      r.executed = [⟨args, redirecting w, status, output answer⟩] := by
  rw [executeWriter_eq hargs] at h
  have hredirected : executeRedirected sys args pipeFile false w = .ok r := by
    rw [← h, ← pipe_target w.vfs.currentDirectory]
    rfl
  obtain ⟨w₁, hstart, hrest⟩ := Outcome.bind_eq_ok.mp hredirected
  obtain rfl := Except.ok.inj hstart
  obtain ⟨⟨status, answer⟩, hrun, hrest⟩ := Outcome.bind_eq_ok.mp hrest
  obtain ⟨⟨stored, after, t⟩, hstore, hdone⟩ := Outcome.bind_eq_ok.mp hrest
  obtain rfl := Except.ok.inj hdone
  exact ⟨status, answer, stored, t, hrun, hstore, rfl⟩

end Stages

section Law

variable {sys : System ω} {w : World ω} {c c₁ c₂ : Bytes} {cs : List Bytes}

theorem single_iff (hstage : Stage c) :
    RunsPipeline sys [c] w ↔
      (words blanks c).length ≤ 255 ∧ ∃ r, executePlain sys (words blanks c) w = .ok r := by
  have hpipeline : executePipeline sys ([pipe].intercalate [c]) w =
      executeCommandWithParsing sys c w := by
    rw [List.intercalate_singleton, executePipeline, breakAt_of_not_mem hstage.no_pipe]
  simp only [RunsPipeline, hpipeline]
  constructor
  · rintro ⟨r, hrun, hchain, _⟩
    obtain ⟨r', hplain, _, _, hexecuted⟩ := parsed_run hstage.plain hstage.word hrun
    obtain ⟨_, hone⟩ := executed_plain hplain
    rw [hexecuted, hone] at hchain
    have hlen := take_words.mp hchain.1
    rw [commandArgs, take_words.mpr hlen] at hplain
    exact ⟨hlen, r', hplain⟩
  · rintro ⟨hlen, r', hplain⟩
    rw [← take_words.mpr hlen] at hplain
    obtain ⟨r, hrun, hstatus, _, hexecuted⟩ := run_parsed hstage.plain hstage.word hplain
    obtain ⟨_, hone⟩ := executed_plain hplain
    refine ⟨r, hrun, ?_, ?_⟩
    · rw [hexecuted, hone]
      exact ⟨take_words.mpr hlen, trivial⟩
    · rw [hexecuted, hone, hstatus]
      rfl

theorem breakAt_stages (hstage : Stage c₁) :
    breakAt [pipe] ([pipe].intercalate (c₁ :: c₂ :: cs)) =
      some (c₁, [pipe].intercalate (c₂ :: cs)) := by
  rw [List.intercalate_cons_cons, List.append_assoc]
  exact breakAt_append hstage.no_pipe _

theorem zero_not_mem_stages (hstages : ∀ c ∈ cs, Stage c) : 0 ∉ [pipe].intercalate cs := by
  intro hin
  rcases mem_joined hin with hpipe | ⟨c, hc, hzero⟩
  · exact absurd hpipe (by decide)
  · exact (hstages c hc).plain.1 hzero

theorem executePipeline_pair (h₁ : Stage c₁) :
    executePipeline sys ([pipe].intercalate [c₁, c₂]) w = executePiped sys c₁ c₂ w := by
  rw [executePipeline, breakAt_stages h₁, List.intercalate_singleton]

theorem pipesInto_of_runs (h₁ : Stage c₁) (h₂ : Stage c₂) (h : RunsPipeline sys [c₁, c₂] w) :
    PipesInto sys c₁ c₂ w := by
  have hargs₁ := commandArgs_ne_nil h₁.word
  simp only [RunsPipeline, executePipeline_pair h₁, executePiped_eq_ok h₁.plain.1 h₂.plain.1] at h
  obtain ⟨_, ⟨writer, reader, t, gone, hwriter, hreader, ht, hgone, rfl⟩, hchain, hlast⟩ := h
  obtain ⟨status, answer, stored, u, hrun, hstore, hone⟩ := executeWriter_ok hargs₁ hwriter
  obtain ⟨s, hmade, hdelivered⟩ := delivered_iff hstore
  rw [hone, List.singleton_append] at hchain
  obtain ⟨hwords₁, hsecond⟩ := hchain
  have hlen₁ := take_words.mp hwords₁
  rcases executeReader_cases hreader with hnone | ⟨_, _, hsingle⟩ | ⟨hreads, hlen, hplain⟩
  · rw [hnone] at hsecond
    cases hsecond
  · rw [hsingle] at hsecond
    obtain ⟨⟨file, hfile, _⟩, _⟩ := hsecond
    have hlength := congrArg List.length hfile
    simp only [commandArgs, List.length_take, List.length_append, List.length_singleton] at hlength
    omega
  · have hlen₂ : (words blanks c₂).length ≤ 254 := by
      rw [commandArgs, List.length_take] at hlen
      omega
    have hall : commandArgs c₂ = words blanks c₂ := take_words.mpr (by omega)
    rw [hall] at hreads hplain
    obtain ⟨_, hsingle⟩ := executed_plain hplain
    rw [hsingle] at hsecond
    obtain ⟨⟨file, hfile, hread⟩, _⟩ := hsecond
    obtain rfl : pipeFile = file := List.singleton_inj.mp ((List.append_right_inj _).mp hfile)
    refine ⟨hlen₁, hlen₂, hreads, ⟨status, answer, s, ?_, hmade, hdelivered.mp hread⟩,
      writer, reader, gone, ?_, hplain, ?_, hgone⟩
    · rw [← hwords₁]
      exact hrun
    · rw [← hwords₁, ← executeWriter_eq hargs₁]
      exact hwriter
    · rw [hone, hsingle] at hlast
      exact Option.some.inj hlast

theorem runs_of_pipesInto (h₁ : Stage c₁) (h₂ : Stage c₂) (h : PipesInto sys c₁ c₂ w) :
    RunsPipeline sys [c₁, c₂] w := by
  have hargs₁ := commandArgs_ne_nil h₁.word
  simp only [RunsPipeline, executePipeline_pair h₁, executePiped_eq_ok h₁.plain.1 h₂.plain.1]
  obtain ⟨hlen₁, hlen₂, hreads, ⟨status, answer, s, hrun, hmade, hdelivered⟩, writer, reader, gone,
    hwriter, hplain, hstatus, hgone⟩ := h
  have hall₁ : commandArgs c₁ = words blanks c₁ := take_words.mpr hlen₁
  have hall₂ : commandArgs c₂ = words blanks c₂ := take_words.mpr (by omega)
  rw [← hall₁, ← executeWriter_eq hargs₁] at hwriter
  obtain ⟨status', answer', stored, u, hrun', hstore, hone⟩ := executeWriter_ok hargs₁ hwriter
  rw [hall₁, hrun] at hrun'
  obtain ⟨rfl, rfl⟩ := Prod.mk.inj (Except.ok.inj hrun')
  obtain ⟨s', hmade', hiff⟩ := delivered_iff hstore
  obtain rfl := Except.ok.inj (hmade.symm.trans hmade')
  obtain ⟨t, ht⟩ := findStrtok_total reader.world.vfs pipeFile
  obtain ⟨_, hsingle⟩ := executed_plain hplain
  refine ⟨_, ⟨writer, reader, t, gone, hwriter, ?_, ht, hgone, rfl⟩, ?_, ?_⟩
  · rw [hall₂, executeReader_file hreads hlen₂]
    exact hplain
  · rw [hone, hsingle]
    exact ⟨hall₁, ⟨pipeFile, rfl, hiff.mpr hdelivered⟩, trivial⟩
  · rw [hone, hsingle, hstatus]
    rfl

theorem pair_iff (h₁ : Stage c₁) (h₂ : Stage c₂) :
    RunsPipeline sys [c₁, c₂] w ↔ PipesInto sys c₁ c₂ w :=
  ⟨pipesInto_of_runs h₁ h₂, runs_of_pipesInto h₁ h₂⟩

theorem two_at_most {c₃ : Bytes} {r : Ran ω} (hstages : ∀ c ∈ c₁ :: c₂ :: c₃ :: cs, Stage c)
    (hrun : executePipeline sys ([pipe].intercalate (c₁ :: c₂ :: c₃ :: cs)) w = .ok r) :
    r.executed.length ≤ 2 := by
  have h₁ := hstages c₁ List.mem_cons_self
  have hzero := zero_not_mem_stages fun c hc => hstages c (List.mem_cons_of_mem c₁ hc)
  rw [executePipeline, breakAt_stages h₁] at hrun
  obtain ⟨writer, reader, _, _, hwriter, hreader, _, _, rfl⟩ :=
    (executePiped_eq_ok h₁.plain.1 hzero).mp hrun
  obtain ⟨_, _, _, _, _, _, hone⟩ := executeWriter_ok (commandArgs_ne_nil h₁.word) hwriter
  have hfew : reader.executed.length ≤ 1 := by
    rcases executeReader_cases hreader with hnone | ⟨_, _, hsingle⟩ | ⟨_, _, hplain⟩
    · simp [hnone]
    · simp [hsingle]
    · obtain ⟨_, hsingle⟩ := executed_plain hplain
      simp [hsingle]
  rw [hone, List.length_append, List.length_singleton]
  omega

theorem pipeline_iff (hne : cs ≠ []) (hstages : ∀ c ∈ cs, Stage c) :
    RunsPipeline sys cs w ↔ PipelineHoldsWhen sys w cs := by
  match cs with
  | [] => exact absurd rfl hne
  | [c] => exact single_iff (hstages c List.mem_cons_self)
  | [c₁, c₂] => exact pair_iff (hstages c₁ List.mem_cons_self) (hstages c₂ (by simp))
  | c₁ :: c₂ :: c₃ :: cs =>
    refine iff_of_false ?_ id
    rintro ⟨r, hrun, hchain, _⟩
    have hfew := two_at_most hstages hrun
    rw [length_chained hchain] at hfew
    simp at hfew

end Law

section Concrete

theorem stage_hi {c : Bytes} (hc : c ∈ [str "hi ", str " cat", str " cat "]) : Stage c := by
  simp only [List.mem_cons, List.not_mem_nil, or_false] at hc
  rcases hc with rfl | rfl | rfl
  · exact ⟨by simp only [NoRedirection]; decide +kernel, by decide +kernel, by decide +kernel⟩
  · exact ⟨by simp only [NoRedirection]; decide +kernel, by decide +kernel, by decide +kernel⟩
  · exact ⟨by simp only [NoRedirection]; decide +kernel, by decide +kernel, by decide +kernel⟩

theorem pipeline_iff_hi : RunsPipeline smallSystem [str "hi ", str " cat"] (loggedIn oneFile) ↔
    PipelineHoldsWhen smallSystem (loggedIn oneFile) [str "hi ", str " cat"] := by
  refine pipeline_iff (by simp) fun c hc => stage_hi ?_
  simp only [List.mem_cons, List.not_mem_nil, or_false] at hc ⊢
  tauto

theorem third_stage_swallowed :
    ¬ ∀ (sys : System Unit) (cs : List Bytes) (w : World Unit), cs ≠ [] → (∀ c ∈ cs, Stage c) →
      RunsPipeline sys cs w := by
  intro hall
  have hstages : ∀ c ∈ [str "hi ", str " cat ", str " cat"], Stage c := by
    intro c hc
    refine stage_hi ?_
    simp only [List.mem_cons, List.not_mem_nil, or_false] at hc ⊢
    tauto
  obtain ⟨r, hrun, hchain, _⟩ := hall smallSystem _ (loggedIn oneFile) (by simp) hstages
  have hfew := two_at_most hstages hrun
  rw [length_chained hchain] at hfew
  simp at hfew

end Concrete

end ZoraVM.Shell
