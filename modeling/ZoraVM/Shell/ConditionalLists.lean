import ZoraVM.Shell.SimpleCommands

namespace ZoraVM.Shell

open Foundation Vfs Unix

variable {ω : Type}

section Lists

variable (sys : System ω)

def listText (first : Bytes) (rest : List (Operator × Bytes)) : Bytes :=
  first ++ rest.flatMap fun p => p.1.text ++ p.2

-- Left to right, `status` being the last one.
def shortCircuit : Int → List (Operator × Bytes) → World ω → Outcome (List (Executed ω))
  | _, [], _ => .ok []
  | status, (operator, c) :: rest, w =>
    if operator.selects status then do
      let r ← executeCommandWithParsing sys c w
      let more ← shortCircuit r.status rest r.world
      .ok (r.executed ++ more)
    else shortCircuit status rest w

def conditionalList (first : Bytes) (rest : List (Operator × Bytes)) (w : World ω) :
    Outcome (List (Executed ω)) :=
  shortCircuit sys 0 ((.and, first) :: rest) w

-- What the two sides come to where the whole rest is run as the one command `second ...`: the same
-- command where the words in front of the limit are the same and no later one is selected.
def RestUnseen (second : Bytes) (others : List (Operator × Bytes)) (w : World ω) : Prop :=
  others = [] ∨ (∀ p ∈ others, p.1 = .and) ∧
    commandArgs (listText second others) = commandArgs second ∧
    ∃ r, executeCommandWithParsing sys second w = .ok r ∧ r.status ≠ 0

def ListHoldsWhen (first : Bytes) : List (Operator × Bytes) → World ω → Prop
  | [], _ => True
  | (operator, second) :: others, w =>
    ∃ r, executeCommandWithParsing sys first w = .ok r ∧
      if operator.selects r.status then
        RestUnseen sys second others r.world ∧
          LeavesUsedUp sys (trim blanks (listText second others)) r.world
      else (∀ p ∈ others, p.1 = operator) ∧ LeavesUsedUp sys first w

end Lists

section Text

variable {first second : Bytes} {rest others : List (Operator × Bytes)} {operator : Operator}

theorem listText_cons (first : Bytes) (operator : Operator) (second : Bytes)
    (others : List (Operator × Bytes)) :
    listText first ((operator, second) :: others) =
      first ++ (operator.text ++ listText second others) := by
  simp [listText]

theorem not_mem_listText {c : UInt8} (hfirst : c ∉ first) (hrest : ∀ p ∈ rest, c ∉ p.2)
    (htext : ∀ p ∈ rest, c ∉ p.1.text) : c ∉ listText first rest := by
  simp only [listText, List.mem_append, List.mem_flatMap, not_or, not_exists, not_and]
  exact ⟨hfirst, fun p hp => ⟨htext p hp, hrest p hp⟩⟩

theorem not_mem_text {c : UInt8} (hand : c ≠ ampersand) (hor : c ≠ pipe) (operator : Operator) :
    c ∉ operator.text := by
  cases operator <;> simp [Operator.text, hand, hor]

theorem words_listText (h : words blanks first ≠ []) (rest : List (Operator × Bytes)) :
    words blanks (listText first rest) ≠ [] := by
  rw [Ne, words_eq_nil_iff] at h ⊢
  intro hall
  exact h fun c hc => hall c (List.mem_append_left _ hc)

def Operator.byte : Operator → UInt8
  | .and => ampersand
  | .or => pipe

theorem Operator.text_eq (operator : Operator) : operator.text = [operator.byte, operator.byte] := by
  cases operator <;> rfl

theorem doubled {b : UInt8} (hfirst : b ∉ first) (hrest : ∀ p ∈ rest, b ∉ p.2)
    {before behind : Bytes} (hsplit : listText first rest = before ++ b :: behind)
    (hbefore : b ∉ before) : behind.head? = some b := by
  induction rest generalizing first before with
  | nil =>
    rw [listText, List.flatMap_nil, List.append_nil] at hsplit
    exact absurd (hsplit ▸ List.mem_append_right before List.mem_cons_self) hfirst
  | cons p rest ih =>
    obtain ⟨operator, c⟩ := p
    have hc : b ∉ c := hrest _ List.mem_cons_self
    have hmore : ∀ p ∈ rest, b ∉ p.2 := fun p hp => hrest p (List.mem_cons_of_mem _ hp)
    rw [listText_cons, Operator.text_eq] at hsplit
    obtain ⟨skip, rfl, hskip⟩ : ∃ skip, before = first ++ skip ∧
        operator.byte :: operator.byte :: listText c rest = skip ++ b :: behind := by
      rcases List.append_eq_append_iff.mp hsplit with ⟨skip, hskip, htail⟩ | ⟨skip, hskip, htail⟩
      · exact ⟨skip, hskip, htail⟩
      · cases skip with
        | nil => exact ⟨[], by simpa using hskip.symm, by simpa using htail.symm⟩
        | cons d skip =>
          obtain ⟨rfl, _⟩ := List.cons_eq_cons.mp htail
          exact absurd (hskip ▸ List.mem_append_right before List.mem_cons_self) hfirst
    have hnot : b ∉ skip := fun hin => hbefore (List.mem_append_right first hin)
    match skip with
    | [] =>
      obtain ⟨hbyte, rfl⟩ := List.cons_eq_cons.mp hskip
      rw [hbyte]
      rfl
    | [_] =>
      obtain ⟨rfl, htail⟩ := List.cons_eq_cons.mp hskip
      obtain ⟨rfl, _⟩ := List.cons_eq_cons.mp htail
      exact absurd List.mem_cons_self hnot
    | _ :: _ :: skip =>
      have htail := (List.cons_eq_cons.mp (List.cons_eq_cons.mp hskip).2).2
      exact ih hc hmore htail fun hin => hnot (by simp [hin])

theorem trim_listText (h : words blanks first ≠ []) (rest : List (Operator × Bytes)) :
    ∃ skip, (∀ b ∈ skip, b ∈ blanks) ∧
      listText (trimLeft blanks first) rest = trim blanks (listText first rest) ++ skip := by
  have hleft : trimLeft blanks (listText first rest) = listText (trimLeft blanks first) rest := by
    obtain ⟨skip, c, tail, hskip, hc, rfl⟩ := exists_word h
    simp only [listText]
    rw [List.append_assoc, List.cons_append, trimLeft_append hskip hc, trimLeft_append hskip hc]
    rfl
  rw [← hleft]
  exact trimRight_append blanks _

theorem doubled_trim {b : UInt8} (hb : b ∉ blanks) (hword : words blanks first ≠ [])
    (hfirst : b ∉ first) (hrest : ∀ p ∈ rest, b ∉ p.2) {before behind : Bytes}
    (hsplit : trim blanks (listText first rest) = before ++ b :: behind) (hbefore : b ∉ before) :
    behind.head? = some b := by
  obtain ⟨skip, hskip, htext⟩ := trim_listText hword rest
  rw [hsplit, List.append_assoc, List.cons_append] at htext
  have hdouble := doubled (fun h => hfirst (mem_trimLeft h)) hrest htext hbefore
  cases behind with
  | nil => exact absurd (hskip b (List.mem_of_head? hdouble)) hb
  | cons d behind => exact hdouble

theorem foreground_doubled {part : Bytes}
    (h : ∀ before behind, part = before ++ ampersand :: behind → ampersand ∉ before →
      behind.head? = some ampersand) : foreground part = part := by
  unfold foreground
  split
  · next before behind hbreak =>
    obtain ⟨hsplit, hbefore⟩ := breakAt_byte hbreak
    rw [if_pos (h before behind hsplit hbefore)]
  · rfl

theorem firstOperator_eq (hand : ampersand ∉ first) (hor : pipe ∉ first) (operator : Operator)
    (behind : Bytes) :
    firstOperator (first ++ (operator.text ++ behind)) = some (operator, first, behind) := by
  cases operator with
  | and =>
    have hbreak : breakAt Operator.and.text (first ++ (Operator.and.text ++ behind)) =
        some (first, behind) := breakAt_append hand behind
    simp only [firstOperator, hbreak]
    cases hother : breakAt Operator.or.text (first ++ (Operator.and.text ++ behind)) with
    | none => rfl
    | some found =>
      obtain ⟨before, after⟩ := found
      have hfront : pipe ∉ first ++ Operator.and.text := by
        rw [List.mem_append, not_or]
        exact ⟨hor, by decide⟩
      rw [← List.append_assoc] at hother
      have hle := length_le_of_breakAt hfront hother
      rw [List.length_append] at hle
      have hlt : first.length < before.length :=
        Nat.lt_of_lt_of_le (Nat.lt_add_of_pos_right (by decide)) hle
      simp [hlt]
  | or =>
    have hbreak : breakAt Operator.or.text (first ++ (Operator.or.text ++ behind)) =
        some (first, behind) := breakAt_append hor behind
    simp only [firstOperator, hbreak]
    cases hother : breakAt Operator.and.text (first ++ (Operator.or.text ++ behind)) with
    | none => rfl
    | some found =>
      obtain ⟨before, after⟩ := found
      have hle : first.length ≤ before.length := length_le_of_breakAt hand hother
      simp [Nat.not_lt.mpr hle]

theorem cut_at_operator (hfirst : Simple first) (hsecond : Simple second)
    (hothers : ∀ p ∈ others, Simple p.2) (operator : Operator) :
    ∃ behind, foreground (trim blanks (listText first ((operator, second) :: others))) =
        trimLeft blanks first ++ (operator.text ++ behind) ∧
      firstOperator (trimLeft blanks first ++ (operator.text ++ behind)) =
        some (operator, trimLeft blanks first, behind) ∧
      trimLeft blanks behind = trim blanks (listText second others) := by
  obtain ⟨kept, _, _, _, hleft, htrim⟩ :=
    trim_append hfirst.word (words_listText hsecond.word others) operator.text
  have hand : ampersand ∉ trimLeft blanks first := fun h => hfirst.plain.2.2.1 (mem_trimLeft h)
  have hor : pipe ∉ trimLeft blanks first := fun h => hfirst.plain.2.2.2.1 (mem_trimLeft h)
  refine ⟨kept, ?_, firstOperator_eq hand hor operator kept, hleft⟩
  rw [← htrim, ← listText_cons]
  refine foreground_doubled fun before behind => doubled_trim (by decide) hfirst.word
    hfirst.plain.2.2.1 ?_
  rintro p (_ | ⟨_, hp⟩)
  · exact hsecond.plain.2.2.1
  · exact (hothers p hp).plain.2.2.1

end Text

section Reference

variable {sys : System ω} {w : World ω} {rest : List (Operator × Bytes)} {status : Int}
  {log : List (Executed ω)}

theorem shortCircuit_nil_iff (hsimple : ∀ p ∈ rest, Simple p.2)
    (h : shortCircuit sys status rest w = .ok log) :
    log = [] ↔ ∀ p ∈ rest, p.1.selects status = false := by
  induction rest with
  | nil =>
    obtain rfl := Except.ok.inj h
    simp
  | cons p rest ih =>
    obtain ⟨operator, c⟩ := p
    rw [shortCircuit] at h
    split at h
    · next hselects =>
      obtain ⟨r, hrun, hrest⟩ := Outcome.bind_eq_ok.mp h
      obtain ⟨more, _, hdone⟩ := Outcome.bind_eq_ok.mp hrest
      obtain rfl := Except.ok.inj hdone
      have hc := hsimple _ List.mem_cons_self
      obtain ⟨output, hone⟩ := executed_parsed hc.plain.noRedirection hc.word hrun
      refine iff_of_false (by simp [hone]) fun hall => ?_
      rw [hall _ List.mem_cons_self] at hselects
      cases hselects
    · next hskip =>
      rw [ih (fun p hp => hsimple p (List.mem_cons_of_mem _ hp)) h, List.forall_mem_cons]
      simp [hskip]

theorem shortCircuit_plain (hsimple : ∀ p ∈ rest, Simple p.2)
    (h : shortCircuit sys status rest w = .ok log) :
    ∀ e ∈ log, ∀ word ∈ e.args, pipe ∉ word := by
  induction rest generalizing status w log with
  | nil =>
    obtain rfl := Except.ok.inj h
    simp
  | cons p rest ih =>
    obtain ⟨operator, c⟩ := p
    have hrest : ∀ p ∈ rest, Simple p.2 := fun p hp => hsimple p (List.mem_cons_of_mem _ hp)
    rw [shortCircuit] at h
    split at h
    · obtain ⟨r, hrun, hmore⟩ := Outcome.bind_eq_ok.mp h
      obtain ⟨more, hlater, hdone⟩ := Outcome.bind_eq_ok.mp hmore
      obtain rfl := Except.ok.inj hdone
      have hc := hsimple _ List.mem_cons_self
      obtain ⟨output, hone⟩ := executed_parsed hc.plain.noRedirection hc.word hrun
      rw [hone]
      rintro e (_ | ⟨_, he⟩)
      · intro word hword hin
        exact hc.plain.2.2.2.1 (mem_words (List.mem_of_mem_take hword) pipe hin)
      · exact ih hrest hlater e he
    · exact ih hrest h

theorem Operator.selects_iff {operator other : Operator}
    (h : operator.selects status = false) : other.selects status = false ↔ other = operator := by
  cases operator <;> cases other <;> simp_all [Operator.selects]

end Reference

section Rest

variable {sys : System ω} {w : World ω} {second : Bytes} {others : List (Operator × Bytes)}

theorem piped_executes {first behind : Bytes} {r : Ran ω} (hzero : 0 ∉ behind)
    (h : executePiped sys first (pipe :: behind) w = .ok r) :
    ∃ e ∈ r.executed, ∃ word ∈ e.args, pipe ∈ word := by
  obtain ⟨_, _, hrest⟩ := Outcome.bind_eq_ok.mp h
  obtain ⟨writer, _, hrest⟩ := Outcome.bind_eq_ok.mp hrest
  obtain ⟨⟨args, t⟩, hargs, hrest⟩ := Outcome.bind_eq_ok.mp hrest
  obtain ⟨reader, hreader, hrest⟩ := Outcome.bind_eq_ok.mp hrest
  obtain ⟨_, _, hrest⟩ := Outcome.bind_eq_ok.mp hrest
  obtain ⟨_, _, hdone⟩ := Outcome.bind_eq_ok.mp hrest
  obtain rfl := Except.ok.inj hdone
  have hblank : pipe ∉ blanks := by decide
  have hnot : 0 ∉ pipe :: behind := by
    rw [List.mem_cons, not_or]
    exact ⟨by decide, hzero⟩
  obtain ⟨u, hwords, _⟩ := firstWords_eq (show 0 ∉ blanks by decide) 255 hnot
  rw [trimLeft_of_word hblank, hwords] at hargs
  obtain ⟨name, more, hhead⟩ := head_words hblank behind
  rw [hhead, List.take_succ_cons] at hargs
  obtain ⟨rfl, _⟩ := Prod.mk.inj (Except.ok.inj hargs)
  have hname : ∀ b rest, b ≠ pipe → pipe :: name ≠ b :: rest := by
    intro b rest hb heq
    exact hb (List.cons_eq_cons.mp heq).1.symm
  have hgrep : pipe :: name ≠ str "grep" := hname 103 _ (by decide)
  have hshow : pipe :: name ∉ [str "head", str "tail", str "cat", str "less"] := by
    simp only [List.mem_cons, List.not_mem_nil, or_false, not_or]
    exact ⟨hname 104 _ (by decide), hname 116 _ (by decide), hname 99 _ (by decide),
      hname 108 _ (by decide)⟩
  simp only [executeReader, if_neg hgrep, if_neg hshow, executeCommandWithRedirection] at hreader
  obtain ⟨output, hone⟩ := executed_plain hreader
  refine ⟨_, List.mem_append_right _ (hone ▸ List.mem_singleton_self _), pipe :: name, ?_, ?_⟩
  · exact List.mem_cons_self
  · exact List.mem_cons_self

end Rest

section Law

variable {sys : System ω} {w : World ω} {first second : Bytes} {operator : Operator}
  {rest others : List (Operator × Bytes)} {selected : List (Executed ω)} {r : Ran ω}

theorem strtok_whole {line : Bytes} (hne : line ≠ []) (hsemicolon : semicolon ∉ line)
    (hzero : 0 ∉ line) :
    ∃ u, strtok [semicolon] (strtokStart (line ++ [0])) = .ok (some line, u) := by
  have hword : ∀ c ∈ line, c ∉ [semicolon] ∧ c ≠ 0 := fun c hc =>
    ⟨by simpa using ne_of_mem_of_not_mem hc hsemicolon, ne_of_mem_of_not_mem hc hzero⟩
  have hnone : ∀ c ∈ ([] : Bytes), c ∈ [semicolon] := by simp
  exact ⟨_, strtok_word hnone hne hword (.inr rfl) rfl rfl⟩

theorem executePipeline_plain {text : Bytes} (h : pipe ∉ text) :
    executePipeline sys text w = executeCommandWithParsing sys text w := by
  rw [executePipeline, breakAt_of_not_mem h]

def followedBy (r r' : Ran ω) : Ran ω :=
  { r' with executed := r.executed ++ r'.executed, strtok := r'.strtok.or r.strtok }

theorem executeConditional_list (hfirst : Simple first) (hsecond : Simple second)
    (hothers : ∀ p ∈ others, Simple p.2) :
    executeConditional sys (foreground (trim blanks (listText first ((operator, second) :: others)))) w =
      executeCommandWithParsing sys (trimLeft blanks first) w >>= fun r =>
        if operator.selects r.status then
          followedBy r <$> executePipeline sys (trim blanks (listText second others)) r.world
        else .ok r := by
  obtain ⟨behind, hpart, hcut, htrim⟩ := cut_at_operator hfirst hsecond hothers operator
  have hpipe : pipe ∉ trimLeft blanks first := hfirst.trimLeft.plain.2.2.2.1
  rw [hpart, executeConditional, hcut, ← htrim]
  simp only [executePipeline_plain hpipe]
  congr 1

theorem simple_rest (hsecond : Simple second) (hothers : ∀ p ∈ others, Simple p.2) :
    ∀ p ∈ (operator, second) :: others, Simple p.2 := by
  rintro p (_ | ⟨_, hp⟩)
  · exact hsecond
  · exact hothers p hp

theorem unselected_iff (hfirst : Simple first) (hquiet : QuietCommand sys first)
    (hothers : ∀ p ∈ others, Simple p.2)
    (hrun : executeCommandWithParsing sys (trimLeft blanks first) w = .ok r)
    {status : Int} {w' : World ω} {more : List (Executed ω)}
    (hselects : operator.selects status = false)
    (hmore : shortCircuit sys status others w' = .ok more) :
    ((∃ t, r.strtok = some t ∧ t.next = .usedUp) ∧ r.executed = r.executed ++ more) ↔
      (∀ p ∈ others, p.1 = operator) ∧ LeavesUsedUp sys first w := by
  have hquiet' : QuietCommand sys (trimLeft blanks first) :=
    hquiet.congr (by rw [words_trimLeft])
  have hlist : r.executed = r.executed ++ more ↔ ∀ p ∈ others, p.1 = operator := by
    rw [List.self_eq_append_right, shortCircuit_nil_iff hothers hmore]
    exact forall₂_congr fun p _ => Operator.selects_iff hselects
  rw [parsed_usedUp hfirst.trimLeft.plain.noRedirection hfirst.trimLeft.word hquiet' hrun,
    leavesUsedUp_trimLeft hfirst.word, hlist, and_comm]

theorem listText_plain (hfirst : Simple first) (hrest : ∀ p ∈ rest, Simple p.2) :
    NoRedirection (listText first rest) ∧ semicolon ∉ listText first rest := by
  have hnot : ∀ c, c ≠ ampersand → c ≠ pipe → c ∉ first → (∀ p ∈ rest, c ∉ p.2) →
      c ∉ listText first rest := fun c hand hor hc hall =>
    not_mem_listText hc hall fun p _ => not_mem_text hand hor p.1
  obtain ⟨hzero, hsemicolon, _, _, hless, hgreater⟩ := hfirst.plain
  refine ⟨⟨?_, ?_, ?_⟩, ?_⟩
  · exact hnot 0 (by decide) (by decide) hzero fun p hp => (hrest p hp).plain.1
  · exact hnot lessThan (by decide) (by decide) hless fun p hp => (hrest p hp).plain.2.2.2.2.1
  · exact hnot greaterThan (by decide) (by decide) hgreater fun p hp => (hrest p hp).plain.2.2.2.2.2
  · exact hnot semicolon (by decide) (by decide) hsemicolon fun p hp => (hrest p hp).plain.2.1

theorem restText_plain (hsecond : Simple second) (hothers : ∀ p ∈ others, Simple p.2) :
    NoRedirection (trim blanks (listText second others)) ∧
      words blanks (trim blanks (listText second others)) ≠ [] := by
  obtain ⟨hzero, hless, hgreater⟩ := (listText_plain hsecond hothers).1
  refine ⟨⟨fun h => hzero (mem_trim h), fun h => hless (mem_trim h), fun h => hgreater (mem_trim h)⟩, ?_⟩
  rw [words_trim]
  exact words_listText hsecond.word others

theorem commandArgs_trim (text : Bytes) : commandArgs (trim blanks text) = commandArgs text := by
  rw [commandArgs, commandArgs, words_trim]

theorem head_commandArgs (text : Bytes) : (commandArgs text).head? = (words blanks text).head? := by
  rw [commandArgs, List.head?_take]
  rfl

theorem rest_executes (hsecond : Simple second) (hothers : ∀ p ∈ others, Simple p.2)
    (hrun : executePipeline sys (trim blanks (listText second others)) w = .ok r) :
    (∃ e ∈ r.executed, ∃ word ∈ e.args, pipe ∈ word) ∨
      (∀ p ∈ others, p.1 = .and) ∧
        executeCommandWithParsing sys (trim blanks (listText second others)) w = .ok r := by
  by_cases hpipe : pipe ∈ trim blanks (listText second others)
  · left
    obtain ⟨before, behind, htext, hbefore⟩ := List.eq_append_cons_of_mem hpipe
    have hdouble := doubled_trim (by decide) hsecond.word hsecond.plain.2.2.2.1
      (fun p hp => (hothers p hp).plain.2.2.2.1) htext hbefore
    obtain ⟨behind, rfl⟩ := List.head?_eq_some_iff.mp hdouble
    have hzero : 0 ∉ behind := fun h => (restText_plain hsecond hothers).1.1 (by simp [htext, h])
    have hbreak : breakAt [pipe] (before ++ pipe :: pipe :: behind) = some (before, pipe :: behind) :=
      breakAt_append hbefore (pipe :: behind)
    rw [executePipeline, htext, hbreak] at hrun
    exact piped_executes hzero hrun
  · right
    rw [executePipeline_plain hpipe] at hrun
    refine ⟨fun p hp => ?_, hrun⟩
    cases hop : p.1 with
    | and => rfl
    | or =>
      obtain ⟨skip, hskip, htext⟩ := trim_listText hsecond.word others
      have hin : pipe ∈ listText (trimLeft blanks second) others := by
        refine List.mem_append_right _ (List.mem_flatMap.mpr ⟨p, hp, List.mem_append_left _ ?_⟩)
        rw [hop]
        decide
      rw [htext, List.mem_append] at hin
      rcases hin with hin | hin
      · exact absurd hin hpipe
      · exact absurd (hskip pipe hin) (by decide)

theorem followedBy_strtok {r' : Ran ω} {t : Strtok} (ht : r'.strtok = some t) :
    (followedBy r r').strtok = some t := by
  simp [followedBy, ht]

section Selected

variable {r₂ : Ran ω} {more : List (Executed ω)}

theorem shortCircuit_selected {log : List (Executed ω)} (hselects : operator.selects r.status = true)
    (hlog : shortCircuit sys r.status ((operator, second) :: others) r.world = .ok log) :
    ∃ r₂ more, executeCommandWithParsing sys second r.world = .ok r₂ ∧
      shortCircuit sys r₂.status others r₂.world = .ok more ∧ log = r₂.executed ++ more := by
  rw [shortCircuit, if_pos hselects] at hlog
  obtain ⟨r₂, hrun₂, hrest⟩ := Outcome.bind_eq_ok.mp hlog
  obtain ⟨more, hmore, hdone⟩ := Outcome.bind_eq_ok.mp hrest
  exact ⟨r₂, more, hrun₂, hmore, (Except.ok.inj hdone).symm⟩

variable (hothers : ∀ p ∈ others, Simple p.2)
variable (hrun₂ : executeCommandWithParsing sys second r.world = .ok r₂)
variable (hmore : shortCircuit sys r₂.status others r₂.world = .ok more)

include hothers hrun₂ hmore

theorem restUnseen_of_executed {r' : Ran ω} (hsecond : Simple second)
    (hand : ∀ p ∈ others, p.1 = .and)
    (hrun : executeCommandWithParsing sys (trim blanks (listText second others)) r.world = .ok r')
    (hlist : r'.executed = r₂.executed ++ more) : RestUnseen sys second others r.world := by
  obtain ⟨hplain, hword⟩ := restText_plain hsecond hothers
  obtain ⟨_, hone⟩ := executed_parsed hplain hword hrun
  obtain ⟨_, hone₂⟩ := executed_parsed hsecond.plain.noRedirection hsecond.word hrun₂
  rw [hone, hone₂, List.singleton_append, List.cons_eq_cons] at hlist
  obtain ⟨hentry, hnone⟩ := hlist
  cases others with
  | nil => exact .inl rfl
  | cons p others =>
    refine .inr ⟨hand, ?_, r₂, hrun₂, ?_⟩
    · rw [← commandArgs_trim]
      exact congrArg Executed.args hentry
    · have hskipped := (shortCircuit_nil_iff hothers hmore).mp hnone.symm p List.mem_cons_self
      rw [hand p List.mem_cons_self] at hskipped
      simpa [Operator.selects] using hskipped

theorem RestUnseen.same (hunseen : RestUnseen sys second others r.world) :
    (∀ p ∈ others, p.1 = .and) ∧ commandArgs (listText second others) = commandArgs second ∧
      more = [] := by
  rw [shortCircuit_nil_iff hothers hmore]
  rcases hunseen with rfl | ⟨hand, hsame, r₃, hrun₃, hstatus⟩
  · refine ⟨by simp, ?_, by simp⟩
    rw [listText, List.flatMap_nil, List.append_nil]
  · refine ⟨hand, hsame, fun p hp => ?_⟩
    obtain rfl := Except.ok.inj (hrun₂.symm.trans hrun₃)
    rw [hand p hp]
    simpa [Operator.selects] using hstatus

end Selected

theorem selected_iff (hsecond : Simple second) (hquiet : QuietCommand sys second)
    (hothers : ∀ p ∈ others, Simple p.2) {log : List (Executed ω)}
    (hselects : operator.selects r.status = true)
    (hlog : shortCircuit sys r.status ((operator, second) :: others) r.world = .ok log) :
    (∃ r', executeCommandWithParsing sys (trim blanks (listText second others)) r.world = .ok r' ∧
        (∀ p ∈ others, p.1 = .and) ∧ QuietCommand sys (trim blanks (listText second others)) ∧
        (∃ t, r'.strtok = some t ∧ t.next = .usedUp) ∧ r'.executed = log) ↔
      RestUnseen sys second others r.world ∧
        LeavesUsedUp sys (trim blanks (listText second others)) r.world := by
  obtain ⟨hplain, hword⟩ := restText_plain hsecond hothers
  obtain ⟨r₂, more, hrun₂, hmore, rfl⟩ := shortCircuit_selected hselects hlog
  constructor
  · rintro ⟨r', hrun, hand, hquiet', hused, hlist⟩
    exact ⟨restUnseen_of_executed hothers hrun₂ hmore hsecond hand hrun hlist,
      (parsed_usedUp hplain hword hquiet' hrun).mp hused⟩
  · rintro ⟨hunseen, hused⟩
    obtain ⟨hand, hsame, rfl⟩ := hunseen.same hothers hrun₂ hmore
    have hargs : commandArgs (trim blanks (listText second others)) = commandArgs second :=
      (commandArgs_trim _).trans hsame
    have hquiet' : QuietCommand sys (trim blanks (listText second others)) := by
      refine hquiet.congr ?_
      rw [← head_commandArgs, ← head_commandArgs, hargs]
    obtain ⟨r', hrun, _, _, hexecuted⟩ := same_run hargs.symm
      hsecond.plain.noRedirection hsecond.word hplain hword hrun₂
    refine ⟨r', hrun, hand, hquiet', (parsed_usedUp hplain hword hquiet' hrun).mpr hused, ?_⟩
    rw [hexecuted, List.append_nil]

theorem not_mem_and {T : Bytes} (hsecond : Simple second) (hothers : ∀ p ∈ others, Simple p.2)
    (hand : ∀ p ∈ others, p.1 = .and) (hsub : ∀ c ∈ T, c ∈ listText second others) : pipe ∉ T := by
  intro hin
  refine not_mem_listText hsecond.plain.2.2.2.1 (fun p hp => (hothers p hp).plain.2.2.2.1)
    (fun p hp => ?_) (hsub pipe hin)
  rw [hand p hp]
  decide

theorem first_args {T : Bytes} {r' : Ran ω} {more : List (Executed ω)} (hsecond : Simple second)
    (hselects : operator.selects r.status = true)
    (hmore : shortCircuit sys r.status ((operator, second) :: others) r.world = .ok more)
    (hplain : NoRedirection T) (hword : words blanks T ≠ [])
    (hrun : executeCommandWithParsing sys T r.world = .ok r') (hbegins : r'.executed <+: more) :
    commandArgs T = commandArgs second := by
  obtain ⟨r₂, later, hrun₂, _, rfl⟩ := shortCircuit_selected hselects hmore
  obtain ⟨_, hone₂⟩ := executed_parsed hsecond.plain.noRedirection hsecond.word hrun₂
  obtain ⟨_, hone⟩ := executed_parsed hplain hword hrun
  rw [hone, hone₂, List.singleton_append] at hbegins
  exact congrArg Executed.args (List.cons_prefix_cons.mp hbegins).1

theorem executes_followed_iff {line rest : Bytes} {u : Strtok} {more : List (Executed ω)} {r' : Ran ω}
    (hcall : strtok [semicolon] (strtokStart (line ++ [0])) = .ok (some line, u))
    (hpart : trim blanks line ≠ []) (hplain : NoRedirection rest) (hword : words blanks rest ≠ [])
    (hquiet : QuietCommand sys rest) (hrun : executeCommandWithParsing sys rest r.world = .ok r')
    (honly : executeConditional sys (foreground (trim blanks line)) w = .ok (followedBy r r')) :
    (∃ fuel r', parseAndExecuteCommandLine sys fuel line w = .ok (some r') ∧
        r'.executed = r.executed ++ more) ↔
      (∃ t, r'.strtok = some t ∧ t.next = .usedUp) ∧ r'.executed = more := by
  obtain ⟨t, ht, hset, _⟩ := parsed_command hplain hword hquiet hrun
  have hsettled : ∀ r'', executeConditional sys (foreground (trim blanks line)) w = .ok r'' →
      ∃ t, r''.strtok = some t ∧ Settled t := by
    intro r'' hr''
    obtain rfl := Except.ok.inj (honly.symm.trans hr'')
    exact ⟨t, followedBy_strtok ht, hset⟩
  rw [executes_iff hcall hpart hsettled, honly]
  simp only [Except.ok.injEq, exists_eq_left', followedBy_strtok ht, ht, Option.some.injEq]
  exact and_congr_right' (List.append_right_inj r.executed)

theorem followed_iff {line : Bytes} {u : Strtok} {more : List (Executed ω)}
    (hcall : strtok [semicolon] (strtokStart (line ++ [0])) = .ok (some line, u))
    (hpart : trim blanks line ≠ [])
    (hcond : executeConditional sys (foreground (trim blanks line)) w =
      followedBy r <$> executePipeline sys (trim blanks (listText second others)) r.world)
    (hsecond : Simple second) (hquiet : QuietCommand sys second)
    (hothers : ∀ p ∈ others, Simple p.2) (hselects : operator.selects r.status = true)
    (hmore : shortCircuit sys r.status ((operator, second) :: others) r.world = .ok more) :
    (∃ fuel r', parseAndExecuteCommandLine sys fuel line w = .ok (some r') ∧
        r'.executed = r.executed ++ more) ↔
      ∃ r', executeCommandWithParsing sys (trim blanks (listText second others)) r.world = .ok r' ∧
        (∀ p ∈ others, p.1 = .and) ∧ QuietCommand sys (trim blanks (listText second others)) ∧
        (∃ t, r'.strtok = some t ∧ t.next = .usedUp) ∧ r'.executed = more := by
  obtain ⟨hplain, hword⟩ := restText_plain hsecond hothers
  have hall : ∀ p ∈ (operator, second) :: others, Simple p.2 := simple_rest hsecond hothers
  constructor
  · intro hexecutes
    obtain ⟨fuel, ρ, hparse, hlog⟩ := hexecutes
    obtain ⟨ρ', honly, hbegins⟩ := first_part_first hcall hpart hparse
    rw [hcond] at honly
    obtain ⟨r', hrun, rfl⟩ := Outcome.map_eq_ok.mp honly
    rw [hlog] at hbegins
    have hbegins : r'.executed <+: more := (List.prefix_append_right_inj r.executed).mp hbegins
    rcases rest_executes hsecond hothers hrun with ⟨e, he, word, hin, hpipe⟩ | ⟨hand, hexec⟩
    · exact absurd hpipe (shortCircuit_plain hall hmore e (hbegins.subset he) word hin)
    · have hquiet' : QuietCommand sys (trim blanks (listText second others)) := by
        refine hquiet.congr ?_
        rw [← head_commandArgs, ← head_commandArgs]
        exact congrArg List.head? (first_args hsecond hselects hmore hplain hword hexec hbegins)
      have hboth := (executes_followed_iff hcall hpart hplain hword hquiet' hexec (hcond ▸ honly)).mp
        ⟨fuel, ρ, hparse, hlog⟩
      exact ⟨r', hexec, hand, hquiet', hboth⟩
  · rintro ⟨r', hexec, hand, hquiet', hboth⟩
    have hpipe : pipe ∉ trim blanks (listText second others) :=
      not_mem_and hsecond hothers hand fun _ => mem_trim
    refine (executes_followed_iff hcall hpart hplain hword hquiet' hexec ?_).mpr hboth
    rw [hcond, executePipeline_plain hpipe, hexec]
    rfl

theorem unfollowed_iff {line : Bytes} {u : Strtok} {status : Int} {w' : World ω}
    {more : List (Executed ω)}
    (hcall : strtok [semicolon] (strtokStart (line ++ [0])) = .ok (some line, u))
    (hpart : trim blanks line ≠ [])
    (hcond : executeConditional sys (foreground (trim blanks line)) w = .ok r)
    (hfirst : Simple first) (hquiet : QuietCommand sys first)
    (hrun : executeCommandWithParsing sys (trimLeft blanks first) w = .ok r)
    (hothers : ∀ p ∈ others, Simple p.2) (hselects : operator.selects status = false)
    (hmore : shortCircuit sys status others w' = .ok more) :
    (∃ fuel r', parseAndExecuteCommandLine sys fuel line w = .ok (some r') ∧
        r'.executed = r.executed ++ more) ↔
      (∀ p ∈ others, p.1 = operator) ∧ LeavesUsedUp sys first w := by
  have hquiet' : QuietCommand sys (trimLeft blanks first) := hquiet.congr (by rw [words_trimLeft])
  have hsettled : ∀ r', executeConditional sys (foreground (trim blanks line)) w = .ok r' →
      ∃ t, r'.strtok = some t ∧ Settled t := by
    intro r' hr'
    obtain rfl := Except.ok.inj (hcond.symm.trans hr')
    obtain ⟨t, ht, hset, _⟩ := parsed_command hfirst.trimLeft.plain.noRedirection
      hfirst.trimLeft.word hquiet' hrun
    exact ⟨t, ht, hset⟩
  rw [executes_iff hcall hpart hsettled, hcond]
  simp only [Except.ok.injEq, exists_eq_left']
  exact unselected_iff hfirst hquiet hothers hrun hselects hmore

theorem conditional_list_iff (hne : rest ≠ [])
    (hsimple : ∀ c ∈ first :: rest.map Prod.snd, Simple c ∧ QuietCommand sys c)
    (href : conditionalList sys first rest w = .ok selected) :
    (∃ fuel r, parseAndExecuteCommandLine sys fuel (listText first rest) w = .ok (some r) ∧
        r.executed = selected) ↔
      ListHoldsWhen sys first rest w := by
  obtain ⟨⟨operator, second⟩, others, rfl⟩ := List.exists_cons_of_ne_nil hne
  obtain ⟨hfirst, hquiet₁⟩ := hsimple first List.mem_cons_self
  obtain ⟨hsecond, hquiet₂⟩ := hsimple second (by simp)
  have hothers : ∀ p ∈ others, Simple p.2 := fun p hp =>
    (hsimple p.2 (by
      simp only [List.map_cons, List.mem_cons, List.mem_map]
      exact .inr (.inr ⟨p, hp, rfl⟩))).1
  obtain ⟨r₁, hrun₁, hrest⟩ := Outcome.bind_eq_ok.mp href
  obtain ⟨more, hmore, hdone⟩ := Outcome.bind_eq_ok.mp hrest
  obtain rfl := Except.ok.inj hdone
  have hargs : commandArgs first = commandArgs (trimLeft blanks first) := by
    rw [commandArgs, commandArgs, words_trimLeft]
  obtain ⟨r, hrun, hstatus, hworld, hexecuted⟩ := same_run hargs hfirst.plain.noRedirection
    hfirst.word hfirst.trimLeft.plain.noRedirection hfirst.trimLeft.word hrun₁
  have hcond := @executeConditional_list _ sys w _ _ operator _ hfirst hsecond hothers
  rw [hrun] at hcond
  have hall : ∀ p ∈ (operator, second) :: others, Simple p.2 := simple_rest hsecond hothers
  obtain ⟨⟨hzero, _, _⟩, hsemicolon⟩ := listText_plain hfirst hall
  have hline : listText first ((operator, second) :: others) ≠ [] := by
    intro hnil
    exact words_listText hfirst.word ((operator, second) :: others) (hnil ▸ words_nil blanks)
  obtain ⟨u, hcall⟩ := strtok_whole hline hsemicolon hzero
  have hpart : trim blanks (listText first ((operator, second) :: others)) ≠ [] :=
    trim_ne_nil (words_listText hfirst.word _)
  have hholds : ListHoldsWhen sys first ((operator, second) :: others) w ↔
      if operator.selects r.status then
        RestUnseen sys second others r.world ∧
          LeavesUsedUp sys (trim blanks (listText second others)) r.world
      else (∀ p ∈ others, p.1 = operator) ∧ LeavesUsedUp sys first w := by
    simp only [ListHoldsWhen, hrun₁, Except.ok.injEq, exists_eq_left', hstatus, hworld]
  rw [hholds, ← hexecuted]
  rw [← hstatus, ← hworld] at hmore
  cases hselects : operator.selects r.status with
  | false =>
    simp only [bind, Except.bind, hselects, Bool.false_eq_true, if_false] at hcond
    rw [shortCircuit, hselects, if_neg Bool.false_ne_true] at hmore
    simp only [Bool.false_eq_true, if_false]
    exact unfollowed_iff hcall hpart hcond hfirst hquiet₁ hrun hothers hselects hmore
  | true =>
    simp only [bind, Except.bind, hselects, if_true] at hcond
    rw [if_pos rfl, ← selected_iff hsecond hquiet₂ hothers hselects hmore]
    exact followed_iff hcall hpart hcond hsecond hquiet₂ hothers hselects hmore

end Law

section Concrete

def hiHere : Executed Unit := ⟨[str "hi"], loggedIn oneFile, 0, str "hi"⟩

theorem simple_hi {c : Bytes} (hc : c = str "hi" ∨ c = str "hi " ∨ c = str " hi" ∨ c = str " hi ") :
    Simple c ∧ QuietCommand smallSystem c := by
  have hwords : words blanks c = [str "hi"] := by
    rcases hc with rfl | rfl | rfl | rfl <;> decide +kernel
  refine ⟨⟨?_, by simp [hwords]⟩, ?_⟩
  · rcases hc with rfl | rfl | rfl | rfl <;> simp only [NoOperator] <;> decide +kernel
  · have hfound : smallSystem.commandTable.lookup (str "hi") = some (some sayHi) := rfl
    rw [QuietCommand, hwords, List.headD_cons, hfound]
    exact fun _ _ => rfl

theorem list_hi : conditionalList smallSystem (str "hi ") [(.and, str " hi")] (loggedIn oneFile) =
    .ok [hiHere, hiHere] := by
  rfl

theorem conditional_list_iff_hi :
    (∃ fuel r, parseAndExecuteCommandLine smallSystem fuel
        (listText (str "hi ") [(.and, str " hi")]) (loggedIn oneFile) = .ok (some r) ∧
        r.executed = [hiHere, hiHere]) ↔
      ListHoldsWhen smallSystem (str "hi ") [(.and, str " hi")] (loggedIn oneFile) := by
  refine conditional_list_iff (by simp) ?_ list_hi
  intro c hc
  simp only [List.map_cons, List.map_nil, List.mem_cons, List.not_mem_nil, or_false] at hc
  exact simple_hi (by tauto)

theorem third_command_swallowed :
    ¬ ∀ (sys : System Unit) (first : Bytes) (rest : List (Operator × Bytes)) (w : World Unit)
      (selected : List (Executed Unit)), rest ≠ [] →
      (∀ c ∈ first :: rest.map Prod.snd, Simple c ∧ QuietCommand sys c) →
      conditionalList sys first rest w = .ok selected →
      ∃ fuel r, parseAndExecuteCommandLine sys fuel (listText first rest) w = .ok (some r) ∧
        r.executed = selected := by
  intro hall
  have hlist : conditionalList smallSystem (str "hi ") [(.and, str " hi "), (.and, str " hi")]
      (loggedIn oneFile) = .ok [hiHere, hiHere, hiHere] := rfl
  obtain ⟨fuel, r, hrun, hlog⟩ := hall smallSystem (str "hi ") _ _ _ (by simp) (by
    intro c hc
    simp only [List.map_cons, List.map_nil, List.mem_cons, List.not_mem_nil, or_false] at hc
    exact simple_hi (by tauto)) hlist
  have hcall : strtok [semicolon] (strtokStart (str "hi && hi && hi" ++ [0])) =
      .ok (some (str "hi && hi && hi"), ⟨str "hi && hi && hi" ++ [0], .usedUp⟩) := by rfl
  obtain ⟨r', honly, hbegins⟩ := first_part_first hcall (by decide +kernel) hrun
  rw [hlog] at hbegins
  have hexec : executeConditional smallSystem (foreground (trim blanks (str "hi && hi && hi")))
      (loggedIn oneFile) = .ok ⟨0, loggedIn oneFile,
        some ⟨str "hi" ++ 0 :: (str "&&" ++ 0 :: (str "hi" ++ [0])), .usedUp⟩,
        [hiHere, ⟨[str "hi", str "&&", str "hi"], loggedIn oneFile, 0, str "hi"⟩]⟩ := by rfl
  obtain rfl := Except.ok.inj (hexec.symm.trans honly)
  have hargs := (hbegins.map Executed.args)
  exact absurd hargs (by decide +kernel)

end Concrete

end ZoraVM.Shell
