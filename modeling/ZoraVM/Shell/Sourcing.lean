import ZoraVM.Shell.SimpleCommands
import ZoraVM.Unix.TextLines

namespace ZoraVM.Shell

open Foundation Vfs Unix

variable {ω : Type}

section Statements

structure ScriptCommand (c : Bytes) : Prop where
  simple : Simple c
  no_newline : newline ∉ c
  no_dollar : dollar ∉ c
  short : c.length ≤ 1000

def lineText (cmds : List Bytes) : Bytes := [semicolon].intercalate cmds

structure ScriptLine (cmds : List Bytes) : Prop where
  ne_nil : cmds ≠ []
  commands : ∀ c ∈ cmds, ScriptCommand c
  no_comment : (lineText cmds).head? ≠ some 35

def scriptText (lines : List (List Bytes)) (trailing : Bool) : Bytes :=
  separated (lines.map lineText) trailing

def LeavesNode (n : Nat) (s s' : VfsState) : Prop :=
  Forest.valAt s'.nodes n = Forest.valAt s.nodes n ∧
    ∀ a p, Forest.valAt s.nodes n = some a → a.data = some p → s'.blocks.get p = s.blocks.get p

def SparesNode (sys : System ω) (n : Nat) (c : Bytes) : Prop :=
  match sys.commandTable.lookup ((words blanks c).headD []) with
  | some (some handler) => ∀ args w, LeavesNode n w.vfs (handler args w).world.vfs
  | some none => True
  | none => ∀ script args w, LeavesNode n w.vfs (sys.interpret script args w).2.world.vfs

def SourcesAll (sys : System ω) (args : List Bytes) (lines : List (List Bytes)) (w : World ω) : Prop :=
  ∃ fuel r, sourceCommand sys fuel args w = .ok (some r) ∧
    r.executed.map Executed.args = lines.flatten.map commandArgs

def remembered (w : World ω) (line : Bytes) : World ω :=
  { w with history := addToHistory (trimLeft blanks line) w.history }

def handedTo (w : World ω) (p : Nat) (u : Strtok) (line : Bytes) : World ω :=
  remembered { w with vfs := tokenised w.vfs (some p) u.text } line

def FirstLeavesUsedUp (sys : System ω) (path c : Bytes) (w : World ω) : Prop :=
  ∃ p size s block u, vfsReadFile w.vfs path = .ok (some (some p, size), s) ∧
    s.blocks.get p = some block ∧ strtok [newline] (strtokStart block) = .ok (some c, u) ∧
    LeavesUsedUp sys (trim blanks c) (handedTo { w with vfs := s } p u c)

def SourcesWhen (sys : System ω) (path : Bytes) (trailing : Bool) (w : World ω) :
    List (List Bytes) → Prop
  | [] => Terminated w.vfs path
  | [[c]] => (trailing = true ∨ Terminated w.vfs path) ∧ FirstLeavesUsedUp sys path c w
  | _ => False

end Statements

section Text

variable {c line : Bytes} {cs cmds : List Bytes} {env : List (Bytes × Bytes)}

theorem ScriptCommand.noOperator (h : ScriptCommand c) : NoOperator c := h.simple.plain

theorem not_mem_lineText {b : UInt8} (hb : b ≠ semicolon) (hall : ∀ c ∈ cmds, b ∉ c) :
    b ∉ lineText cmds := by
  intro hin
  rcases mem_joined hin with hsemicolon | ⟨c, hc, hbyte⟩
  · exact hb hsemicolon
  · exact hall c hc hbyte

theorem ScriptLine.plainLine (h : ScriptLine cmds) : PlainLine (lineText cmds) := by
  refine ⟨?_, ?_, ?_⟩
  · obtain ⟨c, cs, rfl⟩ := List.exists_cons_of_ne_nil h.ne_nil
    obtain ⟨behind, hsplit, _⟩ := joined_cons semicolon c cs
    have hc : c ≠ [] := by
      rintro rfl
      exact (h.commands [] List.mem_cons_self).simple.word (words_nil blanks)
    rw [lineText, hsplit]
    simp [hc]
  · exact not_mem_lineText (by decide) fun c hc => (h.commands c hc).no_newline
  · exact not_mem_lineText (by decide) fun c hc => (h.commands c hc).noOperator.1

theorem expandFrom_plain {src : Bytes} (hplain : dollar ∉ src) {fuel remaining : Nat}
    (hfuel : src.length ≤ fuel) : expandFrom env fuel src remaining = src.take remaining := by
  induction src generalizing fuel remaining with
  | nil => cases fuel <;> cases remaining <;> rfl
  | cons c src ih =>
    cases fuel with
    | zero => simp at hfuel
    | succ fuel =>
      cases remaining with
      | zero => rfl
      | succ remaining =>
        have hc : c ≠ 36 := fun heq => hplain (heq ▸ List.mem_cons_self)
        have hsrc : dollar ∉ src := List.not_mem_of_not_mem_cons hplain
        have hrest : src.length ≤ fuel := Nat.le_of_succ_le_succ hfuel
        rw [expandFrom, if_neg hc, ih hsrc hrest, List.take_succ_cons]

theorem trimLeft_line {behind : Bytes} (hword : words blanks c ≠ []) :
    trimLeft blanks (c ++ behind) = trimLeft blanks c ++ behind := by
  obtain ⟨skip, b, rest, hskip, hb, rfl⟩ := exists_word hword
  rw [List.append_assoc, List.cons_append, trimLeft_append hskip hb, trimLeft_append hskip hb,
    List.cons_append]

theorem strtok_command (hline : ScriptLine (c :: cs)) :
    ∃ u, strtok [semicolon] (strtokStart
      (expandVariables env (trimLeft blanks (lineText (c :: cs))) 1024 ++ [0])) =
        .ok (some (trimLeft blanks c), u) := by
  have hc := hline.commands c List.mem_cons_self
  have hdollar : dollar ∉ trimLeft blanks (lineText (c :: cs)) := fun h =>
    not_mem_lineText (by decide) (fun c hc => (hline.commands c hc).no_dollar) (mem_trimLeft h)
  obtain ⟨behind, hsplit, hbehind⟩ := joined_cons semicolon c cs
  rw [expandVariables, expandFrom_plain hdollar (Nat.le_refl _), lineText, hsplit,
    trimLeft_line hc.simple.word]
  have hleft := hc.simple.trimLeft
  have hne : trimLeft blanks c ≠ [] := fun hnil => hleft.word (hnil ▸ words_nil blanks)
  have hword : ∀ b ∈ trimLeft blanks c, b ∉ [semicolon] ∧ b ≠ 0 := fun b hb =>
    ⟨by simpa using ne_of_mem_of_not_mem hb hleft.plain.2.1, ne_of_mem_of_not_mem hb hleft.plain.1⟩
  have hskip : ∀ b ∈ ([] : Bytes), b ∈ [semicolon] := by simp
  have hshort : (trimLeft blanks c).length ≤ 1000 :=
    Nat.le_trans (List.dropWhile_sublist _).length_le hc.short
  obtain ⟨k, hk⟩ : ∃ k, 1024 - 1 - (trimLeft blanks c).length = k + 1 :=
    ⟨1022 - (trimLeft blanks c).length, by omega⟩
  have hall : (trimLeft blanks c).take (1024 - 1) = trimLeft blanks c :=
    List.take_of_length_le (by omega)
  rw [List.take_append, hall, hk, List.append_assoc]
  rcases hbehind with rfl | ⟨more, rfl⟩
  · exact ⟨_, strtok_word hskip hne hword (.inr rfl) rfl rfl⟩
  · rw [List.take_succ_cons, List.cons_append]
    exact ⟨_, strtok_word hskip hne hword (.inl List.mem_cons_self) rfl rfl⟩

end Text

section Line

variable {sys : System ω} {w : World ω} {c text : Bytes} {cs : List Bytes}

theorem executeConditional_plain (h : NoOperator text) :
    executeConditional sys (foreground text) w = executeCommandWithParsing sys text w := by
  obtain ⟨_, _, hand, hpipe, _⟩ := h
  have hforeground : foreground text = text := by rw [foreground, breakAt_of_not_mem hand]
  have hfirst : firstOperator text = none := by
    rw [firstOperator, Operator.text, breakAt_of_not_mem hand, Operator.text, breakAt_of_not_mem hpipe]
  rw [hforeground, executeConditional, hfirst]
  simp only [executePipeline, breakAt_of_not_mem hpipe]

theorem trim_trimLeft (text : Bytes) : trim blanks (trimLeft blanks text) = trim blanks text := by
  rw [trim, trim, trimLeft, trimLeft, List.dropWhile_idempotent]

theorem trimmed_settled {r : Ran ω} (hc : Simple c) (hquiet : QuietCommand sys c)
    (hrun : executeCommandWithParsing sys (trim blanks c) w = .ok r) :
    ∃ t, r.strtok = some t ∧ Settled t ∧ (t.next = .usedUp ↔ LeavesUsedUp sys (trim blanks c) w) :=
  parsed_command hc.trim.plain.noRedirection hc.trim.word (hquiet.congr (by rw [words_trim])) hrun

theorem handleCommand_first (hline : ScriptLine (c :: cs)) (hquiet : QuietCommand sys c) {r : Ran ω} :
    (∀ fuel, handleCommand sys fuel (lineText (c :: cs)) w = .ok (some r) →
      executeCommandWithParsing sys (trim blanks c) (remembered w (lineText (c :: cs))) = .ok r ∧
        ∃ t, r.strtok = some t ∧ t.next = .usedUp) ∧
    (executeCommandWithParsing sys (trim blanks c) (remembered w (lineText (c :: cs))) = .ok r →
      (∃ t, r.strtok = some t ∧ t.next = .usedUp) →
        ∀ fuel, handleCommand sys (fuel + 2) (lineText (c :: cs)) w = .ok (some r)) := by
  have hc := (hline.commands c List.mem_cons_self).simple
  have htrimmed : trimLeft blanks (lineText (c :: cs)) ≠ [] := by
    obtain ⟨behind, hsplit, _⟩ := joined_cons semicolon c cs
    rw [lineText, hsplit, trimLeft_line hc.word]
    intro hnil
    exact hc.trimLeft.word ((List.append_eq_nil_iff.mp hnil).1 ▸ words_nil blanks)
  have hpart : trim blanks (trimLeft blanks c) ≠ [] := trim_ne_nil hc.trimLeft.word
  have honly : ∀ w : World ω, executeConditional sys (foreground (trim blanks (trimLeft blanks c))) w =
      executeCommandWithParsing sys (trim blanks c) w := by
    intro w
    rw [trim_trimLeft, executeConditional_plain hc.trim.plain]
  obtain ⟨u, hcall⟩ := @strtok_command c cs w.env hline
  have hsettled : ∀ r, executeConditional sys (foreground (trim blanks (trimLeft blanks c)))
      (remembered w (lineText (c :: cs))) = .ok r → ∃ t, r.strtok = some t ∧ Settled t := by
    intro r hrun
    rw [honly] at hrun
    obtain ⟨t, ht, hset, _⟩ := trimmed_settled hc hquiet hrun
    exact ⟨t, ht, hset⟩
  have hparts := @first_part_only _ sys (remembered w (lineText (c :: cs))) _ _ _ r hcall hpart hsettled
  rw [honly] at hparts
  have hhandled : ∀ fuel, handleCommand sys fuel (lineText (c :: cs)) w =
      parseAndExecuteCommandLine sys fuel
        (expandVariables w.env (trimLeft blanks (lineText (c :: cs))) 1024)
        (remembered w (lineText (c :: cs))) := by
    intro fuel
    rw [handleCommand, if_neg htrimmed]
    rfl
  simp only [hhandled]
  exact hparts

end Line

section Script

variable {sys : System ω} {w : World ω} {c block : Bytes} {cs : List Bytes} {p : Nat} {u : Strtok}

theorem sourceLine_eq (hline : ScriptLine (c :: cs)) (fuel : Nat) :
    sourceLine sys fuel p (idle 0 w) (lineText (c :: cs)) u =
      handleCommand sys fuel (lineText (c :: cs))
          { w with vfs := tokenised w.vfs (some p) u.text } >>= fun ended =>
        .ok (ended.map fun r => ((idle 0 w).before r, r.strtok.getD u)) := by
  rw [sourceLine, if_neg hline.no_comment]
  simp only [idle, Option.isSome_none, Bool.false_eq_true, if_false]
  cases handleCommand sys fuel (lineText (c :: cs)) { w with vfs := tokenised w.vfs (some p) u.text } with
  | error e => rfl
  | ok ended => cases ended <;> rfl

theorem strtok_usedUp {delims : Bytes} {t : Strtok} (h : t.next = .usedUp) :
    strtok delims t = .ok (none, t) := by
  rw [strtok, h]

theorem lines_first (hline : ScriptLine (c :: cs)) (hquiet : QuietCommand sys c)
    (hcall : strtok [newline] (strtokStart block) = .ok (some (lineText (c :: cs)), u)) :
    (∀ fuel st t, forTokens [newline] (fun _ => true) (sourceLine sys fuel p) fuel (idle 0 w) block =
        .ok (some (st, t)) →
      ∃ r, executeCommandWithParsing sys (trim blanks c) (handedTo w p u (lineText (c :: cs))) = .ok r ∧
        LeavesUsedUp sys (trim blanks c) (handedTo w p u (lineText (c :: cs))) ∧
        st.executed = r.executed) ∧
    ∀ r, executeCommandWithParsing sys (trim blanks c) (handedTo w p u (lineText (c :: cs))) = .ok r →
      LeavesUsedUp sys (trim blanks c) (handedTo w p u (lineText (c :: cs))) →
        ∃ t, forTokens [newline] (fun _ => true) (sourceLine sys 2 p) 2 (idle 0 w) block =
          .ok (some ((idle 0 w).before r, t)) := by
  have hc := (hline.commands c List.mem_cons_self).simple
  constructor
  · intro fuel st t h
    simp only [forTokens, hcall, bind, Except.bind] at h
    cases fuel with
    | zero => cases h
    | succ fuel =>
      rw [tokenLoop, if_pos rfl, sourceLine_eq hline] at h
      obtain ⟨ended, hlines, hrest⟩ := Outcome.bind_eq_ok.mp h
      obtain ⟨handled, hhandled, hdone⟩ := Outcome.bind_eq_ok.mp hlines
      obtain rfl := Except.ok.inj hdone
      cases handled with
      | none => cases hrest
      | some r =>
        obtain ⟨hrun, t', ht', hused⟩ := (handleCommand_first hline hquiet).1 _ hhandled
        obtain ⟨t'', ht'', _, hleaves⟩ := trimmed_settled hc hquiet hrun
        obtain rfl := Option.some.inj (ht'.symm.trans ht'')
        refine ⟨r, hrun, hleaves.mp hused, ?_⟩
        simp only [Option.map_some, ht', Option.getD_some, strtok_usedUp hused, bind, Except.bind] at hrest
        cases fuel with
        | zero => cases hrest
        | succ fuel =>
          obtain ⟨rfl, _⟩ := Prod.mk.inj (Option.some.inj (Except.ok.inj hrest))
          rfl
  · intro r hrun hleaves
    obtain ⟨t, ht, _, hused⟩ := trimmed_settled hc hquiet hrun
    have hnext := hused.mpr hleaves
    have hhandled := (handleCommand_first hline hquiet).2 hrun ⟨t, ht, hnext⟩ 0
    refine ⟨t, ?_⟩
    simp only [forTokens, hcall, bind, Except.bind]
    rw [tokenLoop, if_pos rfl, sourceLine_eq hline, hhandled]
    simp only [bind, Except.bind, Option.map_some, ht, Option.getD_some, strtok_usedUp hnext, tokenLoop]

end Script

section Node

variable {sys : System ω} {w : World ω} {c name : Bytes} {args : List Bytes} {n : Nat} {s : VfsState}

theorem leavesNode_self (n : Nat) (s : VfsState) : LeavesNode n s s := ⟨rfl, fun _ _ _ _ => rfl⟩

theorem run_leavesNode (hspares : SparesNode sys n c) {status : Int} {answer : Answer ω}
    (hargs : args.head? = (words blanks c).head?)
    (h : executeSimpleCommandWithExitCode sys args w = .ok (status, answer)) :
    LeavesNode n w.vfs answer.world.vfs := by
  cases args with
  | nil =>
    obtain ⟨_, rfl⟩ := Prod.mk.inj (Except.ok.inj h)
    exact leavesNode_self n w.vfs
  | cons name rest =>
    rw [SparesNode, List.headD_eq_head?_getD, ← hargs, List.head?_cons, Option.getD_some] at hspares
    rcases executeSimpleCommand_cases h with ⟨handler, hfound, rfl⟩ | ⟨_, rfl⟩ |
      ⟨hfound, w', hsame, _, _, ⟨hvfs, _⟩ | ⟨script, hvfs, _⟩⟩
    · rw [hfound] at hspares
      exact hspares _ w
    · exact leavesNode_self n w.vfs
    · rw [hvfs, hsame]
      exact leavesNode_self n w.vfs
    · rw [hfound] at hspares
      rw [hvfs, ← hsame]
      exact hspares script _ w'

theorem parsed_leavesNode (hc : Simple c) (hspares : SparesNode sys n c) {r : Ran ω}
    (hrun : executeCommandWithParsing sys (trim blanks c) w = .ok r) :
    LeavesNode n w.vfs r.world.vfs := by
  obtain ⟨r', hplain, _, hworld, _⟩ := parsed_run hc.trim.plain.noRedirection hc.trim.word hrun
  obtain ⟨status, answer, hanswer, rfl⟩ := executePlain_eq_ok.mp hplain
  have hhead : (commandArgs (trim blanks c)).head? = (words blanks c).head? := by
    rw [commandArgs, words_trim, List.head?_take]
    rfl
  rw [hworld]
  exact run_leavesNode hspares hhead hanswer

theorem read_data {path : Bytes} {p size : Nat} (hnode : vfsFindNode w.vfs path = .ok (some n))
    (hread : vfsReadFile w.vfs path = .ok (some (some p, size), s)) :
    ∃ a, Forest.valAt s.nodes n = some a ∧ a.data = some p := by
  rcases vfsReadFile_cases hread with ⟨hnone, _⟩ | ⟨m, a, hfind, ha, _, _, hload⟩
  · cases hnone
  · obtain rfl := Option.some.inj (Except.ok.inj (hnode.symm.trans hfind))
    rcases hload with ⟨q, hdata, hfound, rfl⟩ | ⟨_, content, _, hfound, rfl⟩
    · obtain ⟨hq, _⟩ := Prod.mk.inj (Option.some.inj hfound)
      exact ⟨a, ha, hdata.trans hq.symm⟩
    · obtain ⟨hq, _⟩ := Prod.mk.inj (Option.some.inj hfound)
      exact ⟨_, valAt_loaded ha content, hq.symm⟩

theorem still_live {p : Nat} {s' : VfsState} {a : Attr} {text block : Bytes}
    (ha : Forest.valAt s.nodes n = some a) (hdata : a.data = some p)
    (hblock : s.blocks.get p = some block)
    (hleaves : LeavesNode n (tokenised s (some p) text) s') : s'.blocks.live p = true := by
  have hsame := hleaves.2 a p ha hdata
  rw [Heap.live, hsame, tokenised, Heap.get_put_self (Heap.lt_size_of_get hblock)]
  rfl

end Node

section Law

variable {sys : System ω} {w : World ω} {path name c block : Bytes} {more cs : List Bytes}
  {lines : List (List Bytes)} {trailing : Bool} {p n size : Nat} {s : VfsState} {u : Strtok}

section Read

variable (hread : vfsReadFile w.vfs path = .ok (some (some p, size), s))
  (hblock : s.blocks.get p = some block)

include hread hblock

theorem sourceCommand_ok {fuel : Nat} {r : Ran ω}
    (h : sourceCommand sys fuel (name :: path :: more) w = .ok (some r)) :
    ∃ st t, forTokens [newline] (fun _ => true) (sourceLine sys fuel p) fuel
      (idle 0 { w with vfs := s }) block = .ok (some (st, t)) ∧ r.executed = st.executed := by
  obtain ⟨_, _, hrest⟩ := Outcome.bind_eq_ok.mp h
  obtain ⟨_, hfound, hrest⟩ := Outcome.bind_eq_ok.mp hrest
  obtain rfl := Except.ok.inj (hread.symm.trans hfound)
  simp only [sourceBlock, blockText, hblock, bind, Except.bind] at hrest
  obtain ⟨ended, hloop, hrest⟩ := Outcome.bind_eq_ok.mp hrest
  cases ended with
  | none => cases hrest
  | some ended =>
    obtain ⟨_, _, hdone⟩ := Outcome.bind_eq_ok.mp hrest
    obtain rfl := Option.some.inj (Except.ok.inj hdone)
    exact ⟨ended.1, ended.2, hloop, rfl⟩

theorem sourceCommand_of {fuel : Nat} {st : Ran ω} {t : Strtok}
    (hloop : forTokens [newline] (fun _ => true) (sourceLine sys fuel p) fuel
      (idle 0 { w with vfs := s }) block = .ok (some (st, t)))
    (hlive : st.world.vfs.blocks.live p = true) :
    ∃ r, sourceCommand sys fuel (name :: path :: more) w = .ok (some r) ∧
      r.executed = st.executed := by
  obtain ⟨t', ht'⟩ := findStrtok_total w.vfs path
  have hblock' : blockText s.blocks (some p) = .ok block := by rw [blockText, hblock]
  simp only [sourceCommand, ht', hread, sourceBlock, hblock', hloop, release, freeData, hlive, if_true,
    bind, Except.bind]
  exact ⟨_, rfl, rfl⟩

theorem sourced_first (hline : ScriptLine (c :: cs)) (hquiet : QuietCommand sys c)
    (hcall : strtok [newline] (strtokStart block) = .ok (some (lineText (c :: cs)), u)) {fuel : Nat}
    {r : Ran ω} (h : sourceCommand sys fuel (name :: path :: more) w = .ok (some r)) :
    r.executed.map Executed.args = [commandArgs c] ∧
      LeavesUsedUp sys (trim blanks c) (handedTo { w with vfs := s } p u (lineText (c :: cs))) := by
  have hc := (hline.commands c List.mem_cons_self).simple
  obtain ⟨st, t, hloop, hexecuted⟩ := sourceCommand_ok hread hblock h
  obtain ⟨r', hrun, hleaves, hsame⟩ := (lines_first hline hquiet hcall).1 fuel st t hloop
  obtain ⟨output, hone⟩ := executed_parsed hc.trim.plain.noRedirection hc.trim.word hrun
  refine ⟨?_, hleaves⟩
  rw [hexecuted, hsame, hone, commandArgs, words_trim]
  rfl

theorem sources_single (hline : ScriptLine [c]) (hquiet : QuietCommand sys c)
    (hspares : SparesNode sys n c) (hnode : vfsFindNode w.vfs path = .ok (some n))
    (hcall : strtok [newline] (strtokStart block) = .ok (some (lineText [c]), u)) :
    SourcesAll sys (name :: path :: more) [[c]] w ↔
      LeavesUsedUp sys (trim blanks c) (handedTo { w with vfs := s } p u (lineText [c])) := by
  have hc := (hline.commands c List.mem_cons_self).simple
  constructor
  · rintro ⟨fuel, r, hrun, _⟩
    exact (sourced_first hread hblock hline hquiet hcall hrun).2
  · intro hleaves
    obtain ⟨status, answer, hanswer, hleft⟩ := hleaves
    obtain ⟨r, hrun, _⟩ := run_parsed hc.trim.plain.noRedirection hc.trim.word
      (executePlain_eq_ok.mpr ⟨status, answer, hanswer, rfl⟩)
    obtain ⟨t, hloop⟩ :=
      (lines_first hline hquiet hcall).2 r hrun ⟨status, answer, hanswer, hleft⟩
    obtain ⟨a, ha, hdata⟩ := read_data hnode hread
    have hlive := still_live ha hdata hblock (parsed_leavesNode hc hspares hrun)
    obtain ⟨r', hsource, _⟩ := @sourceCommand_of _ sys w path name block more p size s hread hblock
      2 _ t hloop hlive
    exact ⟨2, r', hsource, (sourced_first hread hblock hline hquiet hcall hsource).1⟩

theorem not_sources_many (hline : ScriptLine (c :: cs)) (hquiet : QuietCommand sys c)
    (hcall : strtok [newline] (strtokStart block) = .ok (some (lineText (c :: cs)), u))
    (hmany : ((c :: cs) :: lines).flatten.length ≠ 1) :
    ¬ SourcesAll sys (name :: path :: more) ((c :: cs) :: lines) w := by
  rintro ⟨fuel, r, hrun, hall⟩
  rw [(sourced_first hread hblock hline hquiet hcall hrun).1] at hall
  have hlength := congrArg List.length hall
  rw [List.length_map] at hlength
  exact hmany hlength.symm

theorem sources_none (hcall : strtok [newline] (strtokStart block) = .ok (none, u)) :
    SourcesAll sys (name :: path :: more) [] w := by
  have hloop : forTokens [newline] (fun _ => true) (sourceLine sys 1 p) 1
      (idle 0 { w with vfs := s }) block = .ok (some (idle 0 { w with vfs := s }, u)) := by
    simp [forTokens, hcall, tokenLoop, bind, Except.bind]
  have hlive : s.blocks.live p = true := by
    rw [Heap.live, hblock]
    rfl
  obtain ⟨r, hrun, hexecuted⟩ := @sourceCommand_of _ sys w path name block more p size s hread hblock
    1 _ u hloop hlive
  exact ⟨1, r, hrun, by rw [hexecuted]; rfl⟩

theorem not_sources_unended (herror : strtok [newline] (strtokStart block) = .error .bufferOverflow) :
    ¬ SourcesAll sys (name :: path :: more) lines w := by
  rintro ⟨fuel, r, hrun, _⟩
  obtain ⟨st, t, hloop, _⟩ := sourceCommand_ok hread hblock hrun
  simp [forTokens, herror, bind, Except.bind] at hloop

theorem firstLeavesUsedUp_iff (hcall : strtok [newline] (strtokStart block) = .ok (some c, u)) :
    FirstLeavesUsedUp sys path c w ↔
      LeavesUsedUp sys (trim blanks c) (handedTo { w with vfs := s } p u c) := by
  constructor
  · rintro ⟨p', size', s', block', u', hread', hblock', hcall', hleaves⟩
    have hfound := hread.symm.trans hread'
    simp only [Except.ok.injEq, Prod.mk.injEq, Option.some.injEq] at hfound
    obtain ⟨⟨rfl, rfl⟩, rfl⟩ := hfound
    obtain rfl := Option.some.inj (hblock.symm.trans hblock')
    obtain ⟨_, rfl⟩ := Prod.mk.inj (Except.ok.inj (hcall.symm.trans hcall'))
    exact hleaves
  · exact fun hleaves => ⟨p, size, s, block, u, hread, hblock, hcall, hleaves⟩

end Read

theorem flatten_single (hlines : ∀ cmds ∈ lines, ScriptLine cmds)
    (h : ((c :: cs) :: lines).flatten.length = 1) : cs = [] ∧ lines = [] := by
  rw [List.flatten_cons, List.cons_append, List.length_cons, List.length_append] at h
  have hrest : cs.length = 0 := by omega
  have hlater : lines.flatten.length = 0 := by omega
  refine ⟨List.length_eq_zero_iff.mp hrest, ?_⟩
  by_contra hne
  obtain ⟨cmds, others, rfl⟩ := List.exists_cons_of_ne_nil hne
  have hcmds := (hlines cmds List.mem_cons_self).ne_nil
  have hnone := List.flatten_eq_nil_iff.mp (List.length_eq_zero_iff.mp hlater) cmds List.mem_cons_self
  exact hcmds hnone

theorem sourcing_iff (hreach : Reachable w.vfs)
    (htext : readBytes w.vfs path = some (scriptText lines trailing))
    (hnode : vfsFindNode w.vfs path = .ok (some n)) (hlines : ∀ cmds ∈ lines, ScriptLine cmds)
    (hhandlers : ∀ c ∈ lines.flatten, QuietCommand sys c ∧ SparesNode sys n c) :
    SourcesAll sys (name :: path :: more) lines w ↔ SourcesWhen sys path trailing w lines := by
  have hplain : ∀ line ∈ lines.map lineText, PlainLine line := by
    intro line hline
    obtain ⟨cmds, hcmds, rfl⟩ := List.mem_map.mp hline
    exact (hlines cmds hcmds).plainLine
  obtain ⟨p, size, s, block, hread, hblock, ⟨hends, u, hcall⟩ | ⟨hends, herror⟩⟩ :=
    first_search hreach htext hplain
  · match lines with
    | [] => exact iff_of_true (sources_none hread hblock hcall) hends
    | cmds :: lines =>
      have hline := hlines cmds List.mem_cons_self
      obtain ⟨c, cs, rfl⟩ := List.exists_cons_of_ne_nil hline.ne_nil
      obtain ⟨hquiet, hspares⟩ := hhandlers c (by simp)
      by_cases hone : ((c :: cs) :: lines).flatten.length = 1
      · obtain ⟨rfl, rfl⟩ :=
          flatten_single (fun d hd => hlines d (List.mem_cons_of_mem _ hd)) hone
        have hends : trailing = true ∨ Terminated w.vfs path := hends
        have hsingle : lineText [c] = c := List.intercalate_singleton
        have hfirst : strtok [newline] (strtokStart block) = .ok (some c, u) := by
          rw [hcall, List.map_cons, List.head?_cons, hsingle]
        rw [sources_single hread hblock hline hquiet hspares hnode hcall, hsingle, SourcesWhen,
          firstLeavesUsedUp_iff hread hblock hfirst]
        exact (and_iff_right hends).symm
      · refine iff_of_false (not_sources_many hread hblock hline hquiet hcall hone) ?_
        cases cs <;> cases lines <;> simp_all [SourcesWhen]
  · refine iff_of_false (not_sources_unended hread hblock herror) ?_
    match lines with
    | [] => exact hends
    | [] :: _ => exact absurd rfl (hlines [] List.mem_cons_self).ne_nil
    | [[c]] => exact fun hwhen => hends hwhen.1
    | [_ :: _ :: _] => exact id
    | (_ :: _) :: _ :: _ => simp [SourcesWhen]

end Law

section Concrete

theorem scriptLine_hi : ScriptLine [str "hi"] := by
  have hplain : NoOperator (str "hi") := by
    simp only [NoOperator]
    decide +kernel
  refine ⟨by simp, fun c hc => ?_, by decide +kernel⟩
  obtain rfl := List.mem_singleton.mp hc
  exact ⟨⟨hplain, by decide +kernel⟩, by decide +kernel, by decide +kernel, by decide +kernel⟩

theorem handlers_hi (n : Nat) :
    QuietCommand smallSystem (str "hi") ∧ SparesNode smallSystem n (str "hi") := by
  have hwords : words blanks (str "hi") = [str "hi"] := by decide +kernel
  have hfound : smallSystem.commandTable.lookup (str "hi") = some (some sayHi) := rfl
  rw [QuietCommand, SparesNode, hwords, List.headD_cons, hfound]
  exact ⟨fun _ _ => rfl, fun _ w => leavesNode_self n w.vfs⟩

def oneLine : VfsState :=
  ran (fun _ _ => true) (openHost []) [.createFile (str "/f"), .writeFile (str "/f") (str "hi\n")]

theorem sourcing_iff_hi :
    SourcesAll smallSystem [str "source", str "/f"] [[str "hi"]] (loggedIn oneLine) := by
  have hreach := reachableBy_ran (fun _ _ => true) (openHost [])
    [.createFile (str "/f"), .writeFile (str "/f") (str "hi\n")] (by decide +kernel) (by decide +kernel)
  have hone := @sourcing_iff _ smallSystem (loggedIn oneLine) (str "/f") (str "source") [] [[str "hi"]]
    true 7 ⟨_, hreach.mono fun _ _ _ => trivial⟩ (by decide +kernel)
  refine (hone ?_ ?_ ?_).mpr ⟨.inl rfl, 0, 3, oneLine, str "hi\n", ⟨[104, 105, 0], .position 3⟩, ?_, ?_,
    ?_, ?_⟩
  · rw [vfsFindNode_of_live (by decide +kernel)]
    exact congrArg Except.ok (by decide +kernel)
  · intro cmds hcmds
    rw [List.mem_singleton.mp hcmds]
    exact scriptLine_hi
  · intro c hc
    rw [List.mem_singleton.mp hc]
    exact handlers_hi 7
  · rfl
  · decide +kernel
  · decide +kernel
  · exact ⟨0, _, rfl, by decide +kernel, 105, by decide +kernel, by decide +kernel⟩

def twoLines : VfsState :=
  ran (fun _ _ => true) (openHost []) [.createFile (str "/f"), .writeFile (str "/f") (str "hi\nhi\n")]

theorem second_line_skipped :
    ¬ ∀ (sys : System Unit) (w : World Unit) (path name : Bytes) (more : List Bytes)
      (lines : List (List Bytes)) (trailing : Bool) (n : Nat), Reachable w.vfs →
      readBytes w.vfs path = some (scriptText lines trailing) →
      vfsFindNode w.vfs path = .ok (some n) → (∀ cmds ∈ lines, ScriptLine cmds) →
      (∀ c ∈ lines.flatten, QuietCommand sys c ∧ SparesNode sys n c) →
      SourcesAll sys (name :: path :: more) lines w := by
  intro hall
  have hreach := reachableBy_ran (fun _ _ => true) (openHost [])
    [.createFile (str "/f"), .writeFile (str "/f") (str "hi\nhi\n")] (by decide +kernel)
    (by decide +kernel)
  have hreachable : Reachable (loggedIn twoLines).vfs := ⟨_, hreach.mono fun _ _ _ => trivial⟩
  have htext : readBytes (loggedIn twoLines).vfs (str "/f") =
      some (scriptText [[str "hi"], [str "hi"]] true) := by decide +kernel
  have hnode : vfsFindNode (loggedIn twoLines).vfs (str "/f") = .ok (some 7) := by
    rw [vfsFindNode_of_live (by decide +kernel)]
    exact congrArg Except.ok (by decide +kernel)
  have hlines : ∀ cmds ∈ [[str "hi"], [str "hi"]], ScriptLine cmds := by
    intro cmds hcmds
    obtain rfl : cmds = [str "hi"] := by simpa using hcmds
    exact scriptLine_hi
  have hhandlers : ∀ c ∈ [[str "hi"], [str "hi"]].flatten,
      QuietCommand smallSystem c ∧ SparesNode smallSystem 7 c := by
    intro c hc
    obtain rfl : c = str "hi" := by simpa using hc
    exact handlers_hi 7
  have hsources := hall smallSystem (loggedIn twoLines) (str "/f") (str "source") [] _ true 7 hreachable
    htext hnode hlines hhandlers
  have hplain : ∀ line ∈ [str "hi", str "hi"], PlainLine line := by
    intro line hline
    obtain rfl : line = str "hi" := by simpa using hline
    exact ⟨by simp [str], by decide +kernel, by decide +kernel⟩
  obtain ⟨p, size, s, block, hread, hblock, ⟨_, u, hcall⟩ | ⟨hends, _⟩⟩ :=
    first_search hreachable htext hplain
  · exact not_sources_many hread hblock scriptLine_hi (handlers_hi 7).1 hcall (by simp) hsources
  · exact hends trivial

end Concrete

end ZoraVM.Shell
