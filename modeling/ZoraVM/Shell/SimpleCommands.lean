import ZoraVM.Shell.CommandLine

namespace ZoraVM.Shell

open Foundation Vfs Unix

variable {ω : Type}

section Commands

def NoOperator (text : Bytes) : Prop :=
  0 ∉ text ∧ semicolon ∉ text ∧ ampersand ∉ text ∧ pipe ∉ text ∧ lessThan ∉ text ∧
    greaterThan ∉ text

def NoRedirection (text : Bytes) : Prop := 0 ∉ text ∧ lessThan ∉ text ∧ greaterThan ∉ text

theorem NoOperator.noRedirection {text : Bytes} (h : NoOperator text) : NoRedirection text :=
  ⟨h.1, h.2.2.2.2⟩

structure Simple (c : Bytes) : Prop where
  plain : NoOperator c
  word : words blanks c ≠ []

def QuietCommand (sys : System ω) (c : Bytes) : Prop :=
  match sys.commandTable.lookup ((words blanks c).headD []) with
  | some (some handler) => ∀ args w, (handler args w).strtok = none
  | some none => True
  | none => ∀ path args w, (sys.interpret path args w).2.strtok = none

def commandArgs (c : Bytes) : List Bytes := (words blanks c).take 255

def LeavesUsedUp (sys : System ω) (c : Bytes) (w : World ω) : Prop :=
  ∃ status answer, executeSimpleCommandWithExitCode sys (commandArgs c) w = .ok (status, answer) ∧
    match answer.strtok with
    | some t => t.next = .usedUp
    | none => (words blanks c).length ≤ 256 ∧ EndsInWord blanks c

end Commands

section Quiet

variable {sys : System ω} {w : World ω} {c : Bytes} {args : List Bytes}

def Settled (t : Strtok) : Prop := t.next = .usedUp ∨ t.next = .freed

theorem settled_released (t : Strtok) : Settled (released t) := by
  by_cases h : t.next = .usedUp <;> simp [Settled, released, copyFreed, h]

theorem released_usedUp {t : Strtok} : (released t).next = .usedUp ↔ t.next = .usedUp := by
  by_cases h : t.next = .usedUp <;> simp [released, copyFreed, h]

theorem findStrtok_settled {s : VfsState} {path : Bytes} {t : Option Strtok}
    (h : findStrtok s path = .ok t) : ∀ t' ∈ t, Settled t' := by
  intro t' ht'
  by_cases hpath : path = [slash]
  · rw [findStrtok, if_pos hpath] at h
    obtain rfl := Except.ok.inj h
    cases ht'
  · obtain ⟨u, hu⟩ := findStrtok_eq s hpath
    rw [hu] at h
    obtain rfl := Except.ok.inj h
    obtain rfl := Option.some.inj ht'
    exact settled_released u

def Scripted (sys : System ω) (args : List Bytes) (w : World ω) (vfs : VfsState)
    (strtok : Option Strtok) : Prop :=
  ∃ t : Option Strtok, (∀ t' ∈ t, Settled t') ∧
    (vfs = w.vfs ∧ strtok = t ∨ ∃ path, vfs = (sys.interpret path args w).2.world.vfs ∧
      strtok = (sys.interpret path args w).2.strtok.or t)

theorem tryLanguages_scripted {languages : List (Bytes × Bytes)} {t : Option Strtok} {ran : Bool}
    {answer : Answer ω} (ht : ∀ t' ∈ t, Settled t')
    (h : tryLanguages sys args w languages t = .ok (ran, answer)) :
    Scripted sys args w answer.world.vfs answer.strtok := by
  induction languages generalizing t with
  | nil =>
    obtain ⟨_, rfl⟩ := Prod.mk.inj (Except.ok.inj h)
    exact ⟨t, ht, .inl ⟨rfl, rfl⟩⟩
  | cons language languages ih =>
    obtain ⟨found, _, hrest⟩ := Outcome.bind_eq_ok.mp h
    obtain ⟨here, hhere, hrest⟩ := Outcome.bind_eq_ok.mp hrest
    have hnow : ∀ t' ∈ here.or t, Settled t' := by
      intro t' ht'
      cases here with
      | none => exact ht t' ht'
      | some u => exact findStrtok_settled hhere t' ht'
    cases found with
    | none => exact ih hnow hrest
    | some n =>
      obtain ⟨_, rfl⟩ := Prod.mk.inj (Except.ok.inj hrest)
      exact ⟨_, hnow, .inr ⟨_, rfl, rfl⟩⟩

theorem tryExecuteScriptCommand_scripted {ran : Bool} {answer : Answer ω}
    (h : tryExecuteScriptCommand sys args w = .ok (ran, answer)) :
    ∃ w', w'.vfs = w.vfs ∧ Scripted sys args w' answer.world.vfs answer.strtok := by
  rw [tryExecuteScriptCommand] at h
  split at h
  · obtain ⟨_, rfl⟩ := Prod.mk.inj (Except.ok.inj h)
    exact ⟨w, rfl, none, by simp, .inl ⟨rfl, rfl⟩⟩
  · obtain ⟨⟨_, tried⟩, hlanguages, hdone⟩ := Outcome.bind_eq_ok.mp h
    obtain ⟨_, rfl⟩ := Prod.mk.inj (Except.ok.inj hdone)
    have hnone : ∀ t' ∈ (none : Option Strtok), Settled t' := by simp
    have hlast := tryLanguages_scripted hnone hlanguages
    exact ⟨deeper 1 w, rfl, hlast⟩

theorem executeSimpleCommand_cases {name : Bytes} {rest : List Bytes} {status : Int}
    {answer : Answer ω}
    (h : executeSimpleCommandWithExitCode sys (name :: rest) w = .ok (status, answer)) :
    (∃ handler, sys.commandTable.lookup name = some (some handler) ∧
        answer = handler (name :: rest) w) ∨
      (sys.commandTable.lookup name = some none ∧ answer = ⟨[], w, none⟩) ∨
      sys.commandTable.lookup name = none ∧ ∃ w', w'.vfs = w.vfs ∧
        Scripted sys (name :: rest) w' answer.world.vfs answer.strtok := by
  rw [executeSimpleCommandWithExitCode] at h
  split at h
  · next handler hfound =>
    obtain ⟨_, rfl⟩ := Prod.mk.inj (Except.ok.inj h)
    exact .inl ⟨handler, hfound, rfl⟩
  · next hfound =>
    obtain ⟨_, rfl⟩ := Prod.mk.inj (Except.ok.inj h)
    exact .inr (.inl ⟨hfound, rfl⟩)
  · next hfound =>
    obtain ⟨⟨ran, tried⟩, htry, hrest⟩ := Outcome.bind_eq_ok.mp h
    have hscripted := tryExecuteScriptCommand_scripted htry
    simp only at hrest
    split at hrest
    · obtain ⟨_, rfl⟩ := Prod.mk.inj (Except.ok.inj hrest)
      exact .inr (.inr ⟨hfound, hscripted⟩)
    · obtain ⟨_, rfl⟩ := Prod.mk.inj (Except.ok.inj hrest)
      exact .inr (.inr ⟨hfound, hscripted⟩)

theorem quiet_settled (hquiet : QuietCommand sys c) {status : Int} {answer : Answer ω}
    (hargs : args.head? = (words blanks c).head?)
    (h : executeSimpleCommandWithExitCode sys args w = .ok (status, answer)) :
    ∀ t ∈ answer.strtok, Settled t := by
  cases args with
  | nil =>
    obtain ⟨_, rfl⟩ := Prod.mk.inj (Except.ok.inj h)
    simp
  | cons name rest =>
    rw [QuietCommand, List.headD_eq_head?_getD, ← hargs, List.head?_cons, Option.getD_some] at hquiet
    rcases executeSimpleCommand_cases h with ⟨handler, hfound, rfl⟩ | ⟨hfound, rfl⟩ |
      ⟨hfound, w', _, t, ht, ⟨_, hstrtok⟩ | ⟨path, _, hstrtok⟩⟩
    · rw [hfound] at hquiet
      simp [hquiet]
    · simp
    · exact hstrtok ▸ ht
    · rw [hfound] at hquiet
      rw [hstrtok, hquiet]
      exact ht

end Quiet

section Parsing

variable {sys : System ω} {w : World ω} {text : Bytes}

def endingAt (t : Strtok) (r : Ran ω) : Ran ω := { r with strtok := some (r.strtok.getD (released t)) }

theorem parseOutput_plain (h : greaterThan ∉ text) : parseOutput text = (text, none, false) := by
  simp only [parseOutput, breakAt_of_not_mem h]

theorem dropInput_plain (h : lessThan ∉ text) : dropInput text = text := by
  rw [dropInput, List.takeWhile_eq_self_iff]
  intro c hc
  simpa using ne_of_mem_of_not_mem hc h

theorem commandArgs_ne_nil (h : words blanks text ≠ []) : commandArgs text ≠ [] := by
  rw [commandArgs, Ne, List.take_eq_nil_iff]
  simp [h]

theorem executeCommandWithParsing_eq (hplain : NoRedirection text) (hword : words blanks text ≠ []) :
    ∃ t, (t.next = .usedUp ↔ (words blanks text).length ≤ 256 ∧ EndsInWord blanks text) ∧
      executeCommandWithParsing sys text w = endingAt t <$> executePlain sys (commandArgs text) w := by
  obtain ⟨hzero, hless, hgreater⟩ := hplain
  obtain ⟨t, hfirst, hused, _⟩ := firstWords_eq (show 0 ∉ blanks by decide) 255 hzero
  refine ⟨t, hused, ?_⟩
  rw [← commandArgs] at hfirst
  have hargs := commandArgs_ne_nil hword
  simp only [executeCommandWithParsing, parseOutput_plain hgreater, dropInput_plain hless, hfirst, bind,
    Except.bind, if_neg hargs, executeCommandWithRedirection]
  cases executePlain sys (commandArgs text) w with
  | error e => rfl
  | ok r => rfl

theorem executePlain_eq_ok {args : List Bytes} {r : Ran ω} :
    executePlain sys args w = .ok r ↔ ∃ status answer,
      executeSimpleCommandWithExitCode sys args w = .ok (status, answer) ∧
        r = ⟨status, answer.world, answer.strtok, [⟨args, w, status, answer.printed⟩]⟩ := by
  constructor
  · intro h
    obtain ⟨⟨status, answer⟩, hrun, hdone⟩ := Outcome.bind_eq_ok.mp h
    exact ⟨status, answer, hrun, (Except.ok.inj hdone).symm⟩
  · rintro ⟨status, answer, hrun, rfl⟩
    simp [executePlain, hrun, bind, Except.bind]

theorem parsed_run {r : Ran ω} (hplain : NoRedirection text) (hword : words blanks text ≠ [])
    (h : executeCommandWithParsing sys text w = .ok r) :
    ∃ r', executePlain sys (commandArgs text) w = .ok r' ∧ r.status = r'.status ∧
      r.world = r'.world ∧ r.executed = r'.executed := by
  obtain ⟨u, _, heq⟩ := @executeCommandWithParsing_eq _ sys w _ hplain hword
  rw [heq] at h
  obtain ⟨r', hrun, rfl⟩ := Outcome.map_eq_ok.mp h
  exact ⟨r', hrun, rfl, rfl, rfl⟩

theorem run_parsed {r : Ran ω} (hplain : NoRedirection text) (hword : words blanks text ≠ [])
    (h : executePlain sys (commandArgs text) w = .ok r) :
    ∃ r', executeCommandWithParsing sys text w = .ok r' ∧ r'.status = r.status ∧
      r'.world = r.world ∧ r'.executed = r.executed := by
  obtain ⟨u, _, heq⟩ := @executeCommandWithParsing_eq _ sys w _ hplain hword
  exact ⟨endingAt u r, by rw [heq, h]; rfl, rfl, rfl, rfl⟩

theorem executed_plain {args : List Bytes} {r : Ran ω} (h : executePlain sys args w = .ok r) :
    ∃ output, r.executed = [⟨args, w, r.status, output⟩] := by
  obtain ⟨status, answer, _, rfl⟩ := executePlain_eq_ok.mp h
  exact ⟨answer.printed, rfl⟩

theorem executed_parsed {r : Ran ω} (hplain : NoRedirection text) (hword : words blanks text ≠ [])
    (h : executeCommandWithParsing sys text w = .ok r) :
    ∃ output, r.executed = [⟨commandArgs text, w, r.status, output⟩] := by
  obtain ⟨mid, hmid, hstatus, _, hexecuted⟩ := parsed_run hplain hword h
  rw [hexecuted, hstatus]
  exact executed_plain hmid

theorem same_run {c : Bytes} {r : Ran ω} (hargs : commandArgs text = commandArgs c)
    (hplain : NoRedirection text) (hword : words blanks text ≠ []) (hplain' : NoRedirection c)
    (hword' : words blanks c ≠ []) (h : executeCommandWithParsing sys text w = .ok r) :
    ∃ r', executeCommandWithParsing sys c w = .ok r' ∧ r'.status = r.status ∧ r'.world = r.world ∧
      r'.executed = r.executed := by
  obtain ⟨mid, hrun, hstatus, hworld, hexecuted⟩ := parsed_run hplain hword h
  rw [hargs] at hrun
  rw [hstatus, hworld, hexecuted]
  exact run_parsed hplain' hword' hrun

theorem parsed_command {r : Ran ω} (hplain : NoRedirection text) (hword : words blanks text ≠ [])
    (hquiet : QuietCommand sys text) (h : executeCommandWithParsing sys text w = .ok r) :
    ∃ t, r.strtok = some t ∧ Settled t ∧ (t.next = .usedUp ↔ LeavesUsedUp sys text w) := by
  obtain ⟨u, hused, heq⟩ := @executeCommandWithParsing_eq _ sys w _ hplain hword
  rw [heq] at h
  obtain ⟨r', hargs, rfl⟩ := Outcome.map_eq_ok.mp h
  obtain ⟨status, answer, hrun, rfl⟩ := executePlain_eq_ok.mp hargs
  have hhead : (commandArgs text).head? = (words blanks text).head? := by
    rw [commandArgs, List.head?_take]
    rfl
  have hsettled := quiet_settled hquiet hhead hrun
  have hleaves : LeavesUsedUp sys text w ↔
      (match answer.strtok with
      | some t => t.next = .usedUp
      | none => (words blanks text).length ≤ 256 ∧ EndsInWord blanks text) := by
    constructor
    · rintro ⟨status', answer', hrun', hleft⟩
      obtain ⟨_, rfl⟩ := Prod.mk.inj (Except.ok.inj (hrun.symm.trans hrun'))
      exact hleft
    · exact fun hleft => ⟨status, answer, hrun, hleft⟩
  rw [hleaves]
  refine ⟨_, rfl, ?_⟩
  cases hstrtok : answer.strtok with
  | none => exact ⟨settled_released u, released_usedUp.trans hused⟩
  | some t => exact ⟨hsettled t hstrtok, Iff.rfl⟩

theorem NoOperator.subset {a b : Bytes} (h : NoOperator b) (hsub : ∀ c ∈ a, c ∈ b) : NoOperator a :=
  ⟨fun hin => h.1 (hsub _ hin), fun hin => h.2.1 (hsub _ hin), fun hin => h.2.2.1 (hsub _ hin),
    fun hin => h.2.2.2.1 (hsub _ hin), fun hin => h.2.2.2.2.1 (hsub _ hin),
    fun hin => h.2.2.2.2.2 (hsub _ hin)⟩

theorem Simple.trimLeft (h : Simple text) : Simple (trimLeft blanks text) :=
  ⟨h.plain.subset fun _ hc => mem_trimLeft hc, by rw [words_trimLeft]; exact h.word⟩

theorem Simple.trim (h : Simple text) : Simple (trim blanks text) :=
  ⟨h.plain.subset fun _ hc => mem_trim hc, by rw [words_trim]; exact h.word⟩

theorem QuietCommand.congr {c : Bytes} (h : QuietCommand sys text)
    (hwords : (words blanks c).head? = (words blanks text).head?) : QuietCommand sys c := by
  rw [QuietCommand, List.headD_eq_head?_getD, hwords, ← List.headD_eq_head?_getD]
  exact h

theorem parsed_usedUp {r : Ran ω} (hplain : NoRedirection text) (hword : words blanks text ≠ [])
    (hquiet : QuietCommand sys text) (h : executeCommandWithParsing sys text w = .ok r) :
    (∃ t, r.strtok = some t ∧ t.next = .usedUp) ↔ LeavesUsedUp sys text w := by
  obtain ⟨t, ht, _, hused⟩ := parsed_command hplain hword hquiet h
  rw [← hused]
  constructor
  · rintro ⟨t', ht', hnext⟩
    obtain rfl := Option.some.inj (ht.symm.trans ht')
    exact hnext
  · exact fun hnext => ⟨t, ht, hnext⟩

theorem leavesUsedUp_trimLeft (h : words blanks text ≠ []) :
    LeavesUsedUp sys (Foundation.trimLeft blanks text) w ↔ LeavesUsedUp sys text w := by
  simp only [LeavesUsedUp, commandArgs, words_trimLeft, endsInWord_trimLeft h]

end Parsing

section Parts

variable {sys : System ω} {w : World ω} {line part : Bytes}

theorem executePart_keeps {st st' : Ran ω} {t t' : Strtok} {log : List (Executed ω)}
    (hst : log <+: st.executed) (h : executePart sys st part t = .ok (some (st', t'))) :
    log <+: st'.executed := by
  simp only [executePart] at h
  split at h
  · obtain ⟨rfl, _⟩ := Prod.mk.inj (Option.some.inj (Except.ok.inj h))
    exact hst
  · obtain ⟨r, _, hdone⟩ := Outcome.bind_eq_ok.mp h
    obtain ⟨rfl, _⟩ := Prod.mk.inj (Option.some.inj (Except.ok.inj hdone))
    exact hst.trans (List.prefix_append _ _)

theorem first_part_first {u : Strtok} {fuel : Nat} {r : Ran ω}
    (hcall : strtok [semicolon] (strtokStart (line ++ [0])) = .ok (some part, u))
    (hpart : trim blanks part ≠ [])
    (h : parseAndExecuteCommandLine sys fuel line w = .ok (some r)) :
    ∃ r', executeConditional sys (foreground (trim blanks part)) w = .ok r' ∧
      r'.executed <+: r.executed := by
  obtain ⟨ended, hloop, hdone⟩ := Outcome.bind_eq_ok.mp h
  obtain ⟨⟨st, t⟩, rfl, rfl⟩ := Option.map_eq_some_iff.mp (Except.ok.inj hdone)
  simp only [forTokens, hcall, bind, Except.bind] at hloop
  cases fuel with
  | zero => cases hloop
  | succ fuel =>
    rw [tokenLoop, if_pos rfl] at hloop
    obtain ⟨reached, hbody, hrest⟩ := Outcome.bind_eq_ok.mp hloop
    simp only [executePart, hpart, if_false] at hbody
    obtain ⟨r', hrun, hreached⟩ := Outcome.bind_eq_ok.mp hbody
    obtain rfl := Except.ok.inj hreached
    obtain ⟨⟨_, _⟩, _, hlater⟩ := Outcome.bind_eq_ok.mp hrest
    have hstart : r'.executed <+: ((idle 0 w).before r').executed := List.prefix_rfl
    have hkept := @tokenLoop_preserves _ [semicolon] (fun _ => true) (executePart sys)
      (fun st => r'.executed <+: st.executed) (fun _ _ _ _ _ hst => executePart_keeps hst) _ _ _ _ _ _
      hstart hlater
    exact ⟨r', hrun, hkept⟩

theorem finished_before {r : Ran ω} {t : Strtok} (ht : r.strtok = some t) :
    finished ((idle 0 w).before r, t) = r := by
  obtain ⟨status, world, strtok, executed⟩ := r
  obtain rfl := ht
  rfl

theorem first_part_only {u : Strtok} {r : Ran ω}
    (hcall : strtok [semicolon] (strtokStart (line ++ [0])) = .ok (some part, u))
    (hpart : trim blanks part ≠ [])
    (hsettled : ∀ r, executeConditional sys (foreground (trim blanks part)) w = .ok r →
      ∃ t, r.strtok = some t ∧ Settled t) :
    (∀ fuel, parseAndExecuteCommandLine sys fuel line w = .ok (some r) →
      executeConditional sys (foreground (trim blanks part)) w = .ok r ∧
        ∃ t, r.strtok = some t ∧ t.next = .usedUp) ∧
    (executeConditional sys (foreground (trim blanks part)) w = .ok r →
      (∃ t, r.strtok = some t ∧ t.next = .usedUp) →
        ∀ fuel, parseAndExecuteCommandLine sys (fuel + 2) line w = .ok (some r)) := by
  have hbody : executePart sys (idle 0 w) part u =
      executeConditional sys (foreground (trim blanks part)) w >>= fun r =>
        .ok (some ((idle 0 w).before r, r.strtok.getD u)) := by
    rw [executePart]
    simp only [hpart, if_false]
    rfl
  constructor
  · intro fuel h
    simp only [parseAndExecuteCommandLine, forTokens, hcall, bind, Except.bind] at h
    cases fuel with
    | zero => cases h
    | succ fuel =>
      rw [tokenLoop, if_pos rfl, hbody] at h
      cases hrun : executeConditional sys (foreground (trim blanks part)) w with
      | error e => simp [hrun, bind, Except.bind] at h
      | ok r' =>
        obtain ⟨t, ht, hnext⟩ := hsettled r' hrun
        have hstrtok : r'.strtok.getD u = t := by simp [ht]
        simp only [hrun, hstrtok, bind, Except.bind] at h
        rcases hnext with hnext | hnext
        · have hnone : strtok [semicolon] t = .ok (none, t) := by simp [strtok, hnext]
          rw [hnone] at h
          cases fuel with
          | zero => simp [tokenLoop] at h
          | succ fuel =>
            simp only [tokenLoop, Option.map_some, Except.ok.injEq, Option.some.injEq] at h
            obtain rfl : r' = r := by rw [← h, finished_before ht]
            exact ⟨rfl, t, ht, hnext⟩
        · have herror : strtok [semicolon] t = .error .freedBlock := by simp [strtok, hnext]
          rw [herror] at h
          cases h
  · rintro hrun ⟨t, ht, hnext⟩ fuel
    have hnone : strtok [semicolon] t = .ok (none, t) := by simp [strtok, hnext]
    have hstrtok : r.strtok.getD u = t := by simp [ht]
    simp only [parseAndExecuteCommandLine, forTokens, hcall, bind, Except.bind]
    rw [tokenLoop, if_pos rfl, hbody, hrun]
    simp only [hstrtok, bind, Except.bind, hnone, tokenLoop, Option.map_some, finished_before ht]

theorem executes_iff {u : Strtok} {log : List (Executed ω)}
    (hcall : strtok [semicolon] (strtokStart (line ++ [0])) = .ok (some part, u))
    (hpart : trim blanks part ≠ [])
    (hsettled : ∀ r, executeConditional sys (foreground (trim blanks part)) w = .ok r →
      ∃ t, r.strtok = some t ∧ Settled t) :
    (∃ fuel r, parseAndExecuteCommandLine sys fuel line w = .ok (some r) ∧ r.executed = log) ↔
      ∃ r, executeConditional sys (foreground (trim blanks part)) w = .ok r ∧
        (∃ t, r.strtok = some t ∧ t.next = .usedUp) ∧ r.executed = log := by
  constructor
  · rintro ⟨fuel, r, hrun, hlog⟩
    obtain ⟨honly, hused⟩ := (first_part_only hcall hpart hsettled).1 fuel hrun
    exact ⟨r, honly, hused, hlog⟩
  · rintro ⟨r, honly, hused, hlog⟩
    exact ⟨2, r, (first_part_only hcall hpart hsettled).2 honly hused 0, hlog⟩

end Parts

end ZoraVM.Shell
