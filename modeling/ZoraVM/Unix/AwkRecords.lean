import ZoraVM.Unix.TextLines

namespace ZoraVM.Unix

open Foundation Vfs

section Model

-- What the branches of the record loop from NF on print for the records read so far, and what the
-- END block prints of the sums.
variable (others sums : List (List Bytes) → Bytes)

def awkPrintScript : Bytes := str "\x7b print \x7d"

def awkBanner (script : Bytes) : Bytes :=
  str "ZoraVM AWK v2.0 - Advanced Pattern Scanning and Processing\n" ++
    (str "Script: " ++ (script ++ [newline]))

-- fields[0] is the line itself.
def awkPrint (script line : Bytes) (fields : List Bytes) (before : List (List Bytes)) : Bytes :=
  if script = awkPrintScript ∨ script = str "\x7b print $0 \x7d" then line ++ [newline]
  else if script = str "\x7b print NR, $0 \x7d" then
    str (toString (before.length + 1)) ++ 32 :: (line ++ [newline])
  else if (str "\x7b print $").isPrefixOf script then
    let digit := (script.getD 9 0).toNat
    if 48 ≤ digit then
      match fields[digit - 48]? with
      | some field => field ++ [newline]
      | none => []
    else []
  else others (before ++ [fields])

def awkTotal (totalRecords : Nat) : Bytes :=
  str "Total records processed: " ++ (str (toString totalRecords) ++ [newline])

def awkEnd (script : Bytes) (records : List (List Bytes)) : Bytes :=
  if occurs (str "END") script then awkTotal records.length ++ sums records else []

abbrev AwkState := List (List Bytes) × Bytes

def awkRecord (script : Bytes) (st : AwkState) (line : Bytes) (t : Strtok) :
    Outcome (Option (AwkState × Strtok)) :=
  if 256 ≤ line.length then .error .bufferOverflow
  else do
    match ← unixAwkSplitFieldsEnhanced line 10 with
    | none => .ok none
    | some (fields, next) =>
      let st := (st.1 ++ [fields], st.2 ++ awkPrint others script line fields st.1)
      if !awkBeforeSplit script && occurs (str "split") script then do
        let next ← unixAwkSplitDemo line
        .ok (next.map fun next => (st, { t with next := next }))
      else .ok (some (st, { t with next := next }))

structure AwkRun where
  code : Int
  records : List (List Bytes)
  output : Bytes
  vfs : VfsState

def awkFinish (s : VfsState) (data : Option Nat) (script : Bytes) :
    Option (AwkState × Strtok) → Outcome (Option AwkRun)
  | none => .ok none
  | some ((records, printed), t) => do
    let s ← release (tokenised s data t.text) data
    .ok (some ⟨0, records, awkBanner script ++ (printed ++ awkEnd sums script records), s⟩)

def unixAwkPrinted (fuel : Nat) (s : VfsState) (script : Bytes) (inputFile : Option Bytes) :
    Outcome (Option AwkRun) := do
  match ← readInput s inputFile awkSample with
  | (none, s) =>
    let name := inputFile.getD []
    let missing := str "awk: " ++ (name ++ str ": No such file or directory\n")
    .ok (some ⟨1, [], awkBanner script ++ missing, s⟩)
  | (some input, s) =>
    let ended ←
      forTokens [newline] (fun _ => true) (awkRecord others script) fuel ([], []) input.text
    awkFinish sums s input.data script ended

end Model

section Projection

variable (others sums : List (List Bytes) → Bytes)

theorem awkRecord_counts (script : Bytes) (st : AwkState) (line : Bytes) (t : Strtok) :
    awkLine script st.1.length line t =
      Option.map (Prod.map (fun st : AwkState => st.1.length) id) <$>
        awkRecord others script st line t := by
  unfold awkLine awkRecord
  split
  · rfl
  · cases unixAwkSplitFieldsEnhanced line 10 with
    | error e => rfl
    | ok split =>
      cases split with
      | none => rfl
      | some split =>
        simp only [bind, Except.bind]
        split
        · cases unixAwkSplitDemo line with
          | error e => rfl
          | ok next => cases next <;> simp [Functor.map, Except.map]
        · simp [Functor.map, Except.map]

theorem unixAwk_eq (fuel : Nat) (s : VfsState) (script : Bytes) (inputFile : Option Bytes) :
    unixAwk fuel s script inputFile =
      Option.map (fun r : AwkRun => (r.code, r.records.length, r.vfs)) <$>
        unixAwkPrinted others sums fuel s script inputFile := by
  unfold unixAwk unixAwkPrinted
  cases readInput s inputFile awkSample with
  | error e => rfl
  | ok found =>
    obtain ⟨input, s⟩ := found
    cases input with
    | none => rfl
    | some input =>
      have hloop := @forTokens_map _ _ [newline] (fun _ => true) (fun _ => true) _ (awkLine script)
        (fun st : AwkState => st.1.length) (fun _ => rfl) (awkRecord_counts others script) fuel
        ([], []) input.text
      simp only [bind, Except.bind]
      rw [show (0 : Nat) = (([], []) : AwkState).1.length from rfl, hloop]
      cases forTokens [newline] (fun _ => true) (awkRecord others script) fuel ([], []) input.text with
      | error e => rfl
      | ok ended =>
        cases ended with
        | none => rfl
        | some ended =>
          simp only [Functor.map, Except.map, Option.map, Prod.map, id, awkFinish, bind, Except.bind]
          cases release (tokenised s input.data ended.2.text) input.data with
          | error e => rfl
          | ok s' => rfl

end Projection

section Statements

variable (others sums : List (List Bytes) → Bytes) (s : VfsState) (path : Bytes) (lines : List Bytes)

def blanks : Bytes := [32, 9]

def AwkLine (line : Bytes) : Prop :=
  line ≠ [] ∧ newline ∉ line ∧ 0 ∉ line ∧ line.length ≤ 255 ∧ (words blanks line).length ≤ 9

def PrintsEvery : Prop :=
  ∃ fuel r, unixAwkPrinted others sums fuel s awkPrintScript (some path) = .ok (some r) ∧
    r.output = awkBanner awkPrintScript ++ lines.flatMap fun line => line ++ [newline]

def CountsEvery : Prop :=
  ∀ script, occurs (str "END") script = true → ∃ fuel r printed,
    unixAwkPrinted others sums fuel s script (some path) = .ok (some r) ∧
      r.records.length = lines.length ∧
      r.output = awkBanner script ++ (printed ++ (awkTotal lines.length ++ sums r.records))

def ProcessesEvery : Prop := PrintsEvery others sums s path lines ∧ CountsEvery others sums s path lines

end Statements

section Line

variable {others : List (List Bytes) → Bytes} {script line : Bytes} {st : AwkState} {t : Strtok}

theorem AwkLine.plain (hline : AwkLine line) : PlainLine line := ⟨hline.1, hline.2.1, hline.2.2.1⟩

theorem splitFields_eq (hline : AwkLine line) :
    ∃ next, unixAwkSplitFieldsEnhanced line 10 = .ok (some (line :: words blanks line, next)) ∧
      (next = .usedUp ↔ EndsInWord blanks line) ∧ (next = .freed ↔ ¬ EndsInWord blanks line) := by
  obtain ⟨_, _, hzero, _, hfields⟩ := hline
  obtain ⟨t, hrun, hused, _⟩ := firstWords_eq (show 0 ∉ blanks by decide) 9 hzero
  have hall : (words blanks line).take 9 = words blanks line := List.take_of_length_le hfields
  have hroom : (words blanks line).length ≤ 9 + 1 := by omega
  simp only [hroom, true_and] at hused
  rw [hall] at hrun
  refine ⟨copyFreed t, ?_, ?_, ?_⟩
  · obtain ⟨first, hfirst, hcollect⟩ := Outcome.bind_eq_ok.mp hrun
    have hloop := @tokenLoop_collects [32, 9] first.2 9 10 11 [line] first.1 rfl (by decide)
    simp only [unixAwkSplitFieldsEnhanced, forTokens, bind, Except.bind]
    rw [show strtok [32, 9] (strtokStart (line ++ [0])) = .ok first from hfirst]
    simp only [hloop]
    rw [show collectArgs [32, 9] 9 first.1 first.2 = .ok (words blanks line, t) from hcollect]
    rfl
  · rw [← hused]
    by_cases h : t.next = .usedUp <;> simp [copyFreed, h]
  · rw [← hused]
    by_cases h : t.next = .usedUp <;> simp [copyFreed, h]

theorem awkRecord_eq (hscript : awkBeforeSplit script = true) (hline : AwkLine line) :
    ∃ next, awkRecord others script st line t =
        .ok (some ((st.1 ++ [line :: words blanks line],
          st.2 ++ awkPrint others script line (line :: words blanks line) st.1),
          { t with next := next })) ∧
      (next = .usedUp ↔ EndsInWord blanks line) ∧ (next = .freed ↔ ¬ EndsInWord blanks line) := by
  obtain ⟨next, hsplit, hnext⟩ := splitFields_eq hline
  refine ⟨next, ?_, hnext⟩
  have hshort : ¬ 256 ≤ line.length := by
    have hlen := hline.2.2.2.1
    omega
  rw [awkRecord, if_neg hshort, hsplit]
  simp [bind, Except.bind, hscript]

end Line

section Loop

variable {others sums : List (List Bytes) → Bytes} {script line block : Bytes} {t : Strtok}

theorem first_line_only (hscript : awkBeforeSplit script = true) (hline : AwkLine line)
    (hcall : strtok [newline] (strtokStart block) = .ok (some line, t)) :
    (∀ fuel st t', forTokens [newline] (fun _ => true) (awkRecord others script) fuel ([], []) block =
        .ok (some (st, t')) →
      EndsInWord blanks line ∧ st = ([line :: words blanks line],
        awkPrint others script line (line :: words blanks line) [])) ∧
    (EndsInWord blanks line → ∃ t', forTokens [newline] (fun _ => true) (awkRecord others script) 2
      ([], []) block = .ok (some (([line :: words blanks line],
        awkPrint others script line (line :: words blanks line) []), t'))) := by
  obtain ⟨next, hrecord, hused, hfreed⟩ := @awkRecord_eq others script line ([], []) t hscript hline
  by_cases hends : EndsInWord blanks line
  · obtain rfl := hused.mpr hends
    have hnone : strtok [newline] { t with next := .usedUp } =
        .ok (none, { t with next := .usedUp }) := rfl
    constructor
    · intro fuel st t' hrun
      simp only [forTokens, hcall, bind, Except.bind] at hrun
      cases fuel with
      | zero => cases hrun
      | succ fuel =>
        cases fuel with
        | zero => simp [tokenLoop, hrecord, hnone, bind, Except.bind] at hrun
        | succ fuel =>
          simp only [tokenLoop, hrecord, hnone, bind, Except.bind, if_true, Except.ok.injEq,
            Option.some.injEq, Prod.mk.injEq] at hrun
          exact ⟨hends, hrun.1.symm⟩
    · intro _
      refine ⟨{ t with next := .usedUp }, ?_⟩
      simp [forTokens, hcall, tokenLoop, hrecord, hnone, bind, Except.bind]
  · obtain rfl := hfreed.mpr hends
    have herror : strtok [newline] { t with next := .freed } = .error .freedBlock := rfl
    refine ⟨fun fuel st t' hrun => ?_, fun h => absurd h hends⟩
    simp only [forTokens, hcall, bind, Except.bind] at hrun
    cases fuel with
    | zero => cases hrun
    | succ fuel => simp [tokenLoop, hrecord, herror, bind, Except.bind] at hrun

variable {s u : VfsState} {path : Bytes} {p n fuel : Nat}
  (hread : vfsReadFile s path = .ok (some (some p, n), u)) (hblock : u.blocks.get p = some block)

include hread hblock

theorem unixAwkPrinted_eq (fuel : Nat) : unixAwkPrinted others sums fuel s script (some path) =
    forTokens [newline] (fun _ => true) (awkRecord others script) fuel ([], []) block >>=
      awkFinish sums u (some p) script := by
  rw [unixAwkPrinted, readInput_text hread hblock]
  rfl

theorem unixAwkPrinted_ok {r : AwkRun}
    (hrun : unixAwkPrinted others sums fuel s script (some path) = .ok (some r)) :
    ∃ st t, forTokens [newline] (fun _ => true) (awkRecord others script) fuel ([], []) block =
        .ok (some (st, t)) ∧ r.records = st.1 ∧
      r.output = awkBanner script ++ (st.2 ++ awkEnd sums script st.1) := by
  rw [unixAwkPrinted_eq hread hblock] at hrun
  obtain ⟨ended, hloop, hrest⟩ := Outcome.bind_eq_ok.mp hrun
  cases ended with
  | none => cases hrest
  | some ended =>
    obtain ⟨u', _, hdone⟩ := Outcome.bind_eq_ok.mp hrest
    obtain rfl := Option.some.inj (Except.ok.inj hdone)
    exact ⟨ended.1, ended.2, hloop, rfl, rfl⟩

theorem unixAwkPrinted_of {st : AwkState} {t : Strtok}
    (hloop : forTokens [newline] (fun _ => true) (awkRecord others script) fuel ([], []) block =
      .ok (some (st, t))) :
    ∃ u', unixAwkPrinted others sums fuel s script (some path) = .ok (some ⟨0, st.1,
      awkBanner script ++ (st.2 ++ awkEnd sums script st.1), u'⟩) := by
  refine ⟨{ u with blocks := (u.blocks.put p t.text).free p }, ?_⟩
  rw [unixAwkPrinted_eq hread hblock, hloop]
  simp [awkFinish, release_tokenised hblock, bind, Except.bind]

end Loop

section Law

variable {others sums : List (List Bytes) → Bytes} {s u : VfsState} {path block script : Bytes}
  {p n : Nat} {lines : List Bytes} {line l : Bytes} {trailing : Bool} {t : Strtok}

theorem beforeSplit_print : awkBeforeSplit awkPrintScript = true := by decide

theorem awkEnd_print (records : List (List Bytes)) : awkEnd sums awkPrintScript records = [] :=
  if_neg (by decide)

theorem awkPrint_print (line : Bytes) (fields : List Bytes) (before : List (List Bytes)) :
    awkPrint others awkPrintScript line fields before = line ++ [newline] := if_pos (.inl rfl)

theorem beforeSplit_end (h : occurs (str "END") script = true) : awkBeforeSplit script = true := by
  simp [awkBeforeSplit, h]

variable (hread : vfsReadFile s path = .ok (some (some p, n), u)) (hblock : u.blocks.get p = some block)

include hread hblock

theorem not_printsEvery_of_error (herror : strtok [newline] (strtokStart block) = .error .bufferOverflow)
    (lines : List Bytes) : ¬ PrintsEvery others sums s path lines := by
  rintro ⟨fuel, r, hrun, _⟩
  obtain ⟨st, t, hloop, _⟩ := unixAwkPrinted_ok hread hblock hrun
  simp [forTokens, herror, bind, Except.bind] at hloop

theorem processesEvery_nil (hnone : strtok [newline] (strtokStart block) = .ok (none, t)) :
    ProcessesEvery others sums s path [] := by
  have hloop : ∀ script, forTokens [newline] (fun _ => true) (awkRecord others script) 1 ([], [])
      block = .ok (some (([], []), t)) := by
    intro script
    simp [forTokens, hnone, tokenLoop, bind, Except.bind]
  constructor
  · obtain ⟨u', hrun⟩ :=
      @unixAwkPrinted_of _ sums _ _ _ _ _ _ _ 1 hread hblock _ _ (hloop awkPrintScript)
    exact ⟨1, _, hrun, by simp [awkEnd_print]⟩
  · intro script hend
    obtain ⟨u', hrun⟩ := @unixAwkPrinted_of _ sums _ _ _ _ _ _ _ 1 hread hblock _ _ (hloop script)
    exact ⟨1, _, [], hrun, rfl, by simp [awkEnd, hend]⟩

theorem processesEvery_single (hline : AwkLine line)
    (hcall : strtok [newline] (strtokStart block) = .ok (some line, t)) :
    ProcessesEvery others sums s path [line] ↔ EndsInWord blanks line := by
  constructor
  · rintro ⟨⟨fuel, r, hrun, _⟩, _⟩
    obtain ⟨st, t', hloop, _⟩ := unixAwkPrinted_ok hread hblock hrun
    exact ((first_line_only beforeSplit_print hline hcall).1 fuel st t' hloop).1
  · intro hends
    constructor
    · obtain ⟨t', hloop⟩ := (@first_line_only others _ _ _ _ beforeSplit_print hline hcall).2 hends
      obtain ⟨u', hrun⟩ := @unixAwkPrinted_of _ sums _ _ _ _ _ _ _ 2 hread hblock _ _ hloop
      exact ⟨2, _, hrun, by simp [awkEnd_print, awkPrint_print]⟩
    · intro script hend
      obtain ⟨t', hloop⟩ :=
        (@first_line_only others _ _ _ _ (beforeSplit_end hend) hline hcall).2 hends
      obtain ⟨u', hrun⟩ := @unixAwkPrinted_of _ sums _ _ _ _ _ _ _ 2 hread hblock _ _ hloop
      exact ⟨2, _, _, hrun, rfl, by simp only [awkEnd, hend, if_true]; rfl⟩

theorem not_printsEvery_many (hline : AwkLine line)
    (hcall : strtok [newline] (strtokStart block) = .ok (some line, t)) (lines : List Bytes) :
    ¬ PrintsEvery others sums s path (line :: l :: lines) := by
  rintro ⟨fuel, r, hrun, hprinted⟩
  obtain ⟨st, t', hloop, _, houtput⟩ := unixAwkPrinted_ok hread hblock hrun
  obtain ⟨_, rfl⟩ := (first_line_only beforeSplit_print hline hcall).1 fuel st t' hloop
  rw [houtput, awkEnd_print, awkPrint_print] at hprinted
  have hlength := congrArg List.length hprinted
  simp only [List.length_append, List.flatMap_cons, List.length_singleton, List.length_nil] at hlength
  omega

end Law

section Results

variable {others sums : List (List Bytes) → Bytes} {s : VfsState} {path : Bytes}
  {lines : List Bytes} {trailing : Bool}

theorem awk_processes_every_iff (others sums : List (List Bytes) → Bytes) (hreach : Reachable s)
    (hread : readBytes s path = some (separated lines trailing))
    (hlines : ∀ line ∈ lines, AwkLine line) :
    ProcessesEvery others sums s path lines ↔ (lines = [] ∧ Terminated s path) ∨
      ∃ line, lines = [line] ∧ EndsInWord blanks line ∧ (trailing = true ∨ Terminated s path) := by
  obtain ⟨p, n, t, block, hcall, hblock, ⟨hends, u, hfirst⟩ | ⟨hends, herror⟩⟩ :=
    first_search hreach hread fun line hline => (hlines line hline).plain
  · match lines with
    | [] => exact iff_of_true (processesEvery_nil hcall hblock hfirst) (.inl ⟨rfl, hends⟩)
    | [line] =>
      rw [processesEvery_single hcall hblock (hlines line List.mem_cons_self) hfirst]
      have hends : trailing = true ∨ Terminated s path := hends
      simp [hends]
    | line :: next :: more =>
      refine iff_of_false (fun h => ?_) (by simp)
      exact not_printsEvery_many hcall hblock (hlines line List.mem_cons_self) hfirst more h.1
  · refine iff_of_false (fun h => not_printsEvery_of_error hcall hblock herror lines h.1) ?_
    rintro (⟨rfl, hterminated⟩ | ⟨line, rfl, _, hended⟩)
    · exact hends hterminated
    · exact hends hended

def applesFile : VfsState :=
  ran (fun _ _ => true) (openHost [])
    [.createFile (str "/f"), .writeFile (str "/f") (str "apple 5 red\n")]

theorem awk_processes_every_apples :
    ProcessesEvery (fun _ => []) (fun _ => []) applesFile (str "/f") [str "apple 5 red"] := by
  have hreach := reachableBy_ran (fun _ _ => true) (openHost [])
    [.createFile (str "/f"), .writeFile (str "/f") (str "apple 5 red\n")] (by decide +kernel)
    (by decide +kernel)
  have hline : AwkLine (str "apple 5 red") := by
    refine ⟨?_, ?_, ?_, ?_, ?_⟩ <;> decide
  have hread : readBytes applesFile (str "/f") = some (separated [str "apple 5 red"] true) := by
    decide +kernel
  refine (awk_processes_every_iff _ _ ⟨_, hreach.mono fun _ _ _ => trivial⟩ hread ?_).mpr
    (.inr ⟨_, rfl, ⟨100, by decide, by decide⟩, .inl rfl⟩)
  intro line hin
  rwa [List.mem_singleton.mp hin]

def fruitsFile : VfsState :=
  ran (fun _ _ => true) (openHost [])
    [.createFile (str "/f"), .writeFile (str "/f") (str "apple 5\nkiwi 4\n")]

theorem kiwi_lost :
    ¬ ∀ (others sums : List (List Bytes) → Bytes) (s : VfsState) (path : Bytes) (lines : List Bytes)
      (trailing : Bool), Reachable s → readBytes s path = some (separated lines trailing) →
      (∀ line ∈ lines, AwkLine line) → ProcessesEvery others sums s path lines := by
  intro hall
  have hreach := reachableBy_ran (fun _ _ => true) (openHost [])
    [.createFile (str "/f"), .writeFile (str "/f") (str "apple 5\nkiwi 4\n")] (by decide +kernel)
    (by decide +kernel)
  have happle : AwkLine (str "apple 5") := by
    refine ⟨?_, ?_, ?_, ?_, ?_⟩ <;> decide
  have hkiwi : AwkLine (str "kiwi 4") := by
    refine ⟨?_, ?_, ?_, ?_, ?_⟩ <;> decide
  have hreachable : Reachable fruitsFile := ⟨_, hreach.mono fun _ _ _ => trivial⟩
  have hread : readBytes fruitsFile (str "/f") =
      some (separated [str "apple 5", str "kiwi 4"] true) := by decide +kernel
  have hlines : ∀ line ∈ [str "apple 5", str "kiwi 4"], AwkLine line := by
    intro line hin
    rcases List.mem_cons.mp hin with rfl | hin
    · exact happle
    · rwa [List.mem_singleton.mp hin]
  have hevery := hall (fun _ => []) (fun _ => []) fruitsFile (str "/f") _ true hreachable hread hlines
  obtain ⟨p, n, t, block, hcall, hblock, ⟨_, u, hfirst⟩ | ⟨hends, _⟩⟩ := first_search hreachable hread
    fun line hline => (hlines line hline).plain
  · exact not_printsEvery_many hcall hblock happle hfirst [] hevery.1
  · exact hends trivial

end Results

end ZoraVM.Unix
