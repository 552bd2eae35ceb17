import ZoraVM.Foundation.CInt
import ZoraVM.Foundation.Lines
import ZoraVM.Foundation.Memory
import ZoraVM.Foundation.Runs
import ZoraVM.Shell.Redirection
import ZoraVM.Unix.GrepPartition

namespace ZoraVM.Shell

open Foundation Vfs Unix

section Source

structure UniqFlags where
  count : Bool
  duplicatesOnly : Bool
  uniqueOnly : Bool
  deriving DecidableEq, Repr

structure UniqState where
  prevLine : Bytes
  lineCount : Nat
  printed : List Bytes
  deriving DecidableEq, Repr

def uniqUsage : List Bytes :=
  [str "Usage: uniq [OPTIONS] <filename>\n", str "Options:\n",
    str "  -c         prefix lines with count\n", str "  -d         only print duplicate lines\n",
    str "  -u         only print unique lines\n"]

def uniqArguments (parsed : UniqFlags × Option Bytes) : List Bytes → UniqFlags × Option Bytes
  | [] => parsed
  | arg :: args =>
    uniqArguments
      (if arg = str "-c" then ({ parsed.1 with count := true }, parsed.2)
      else if arg = str "-d" then ({ parsed.1 with duplicatesOnly := true }, parsed.2)
      else if arg = str "-u" then ({ parsed.1 with uniqueOnly := true }, parsed.2)
      else (parsed.1, some arg)) args

-- printf("%6d")
def sixWide (n : Nat) : Bytes :=
  let digits := str (toString n)
  List.replicate (6 - digits.length) 32 ++ digits

def uniqPrint (flags : UniqFlags) (lineCount : Nat) (prevLine : Bytes) : List Bytes :=
  if 0 < prevLine.length then
    let shouldPrint := !(flags.duplicatesOnly && lineCount == 1) &&
      !(flags.uniqueOnly && decide (1 < lineCount))
    if shouldPrint then
      [if flags.count then sixWide lineCount ++ 32 :: (prevLine ++ [newline])
      else prevLine ++ [newline]]
    else []
  else []

-- What the loop does at the end of a line; curr_line is compared and copied up to its first zero.
def uniqLine (flags : UniqFlags) (st : UniqState) (currLine : Bytes) : Checked UniqState :=
  let line := currLine.takeWhile (· ≠ 0)
  if line = st.prevLine then do
    let lineCount ← checkedNat (st.lineCount + 1)
    .ok { st with lineCount := lineCount }
  else
    .ok ⟨line, 1, st.printed ++ uniqPrint flags st.lineCount st.prevLine⟩

def uniqLoop (flags : UniqFlags) : Bytes → Bytes → UniqState → Checked UniqState
  | [], currLine, st => uniqLine flags st currLine
  | c :: content, currLine, st =>
    if c = newline then do
      let st ← uniqLine flags st currLine
      uniqLoop flags content [] st
    else uniqLoop flags content (if currLine.length < 1023 then currLine ++ [c] else currLine) st

def uniqText (flags : UniqFlags) (content : Bytes) : Checked (List Bytes) := do
  let st ← uniqLoop flags content [] ⟨[], 1, []⟩
  .ok (st.printed ++ uniqPrint flags st.lineCount st.prevLine)

def noFlags : UniqFlags := ⟨false, false, false⟩

-- Everything it prints, one entry for each printf.
def uniqCommand (s : VfsState) (argv : List Bytes) : Checked (List Bytes × VfsState) :=
  if argv.length < 2 then .ok (uniqUsage, s)
  else
    match uniqArguments (noFlags, none) argv.tail with
    | (_, none) => .ok ([str "uniq: no input file specified\n"], s)
    | (flags, some filename) => do
      let fullPath := buildFullPath 512 s.currentDirectory filename
      match ← Checked.of (vfsReadFile s fullPath) with
      | (some (some p, size), s) => do
        let content ← Checked.of (copyFrom s.blocks (some p) 0 size)
        let printed ← uniqText flags content
        .ok (printed, s)
      | (_, s) =>
        .ok ([str "uniq: " ++ (fullPath ++ str ": No such file or directory\n")], s)

end Source

section Specification

def uniqSelects (flags : UniqFlags) (n : Nat) : Bool :=
  (!flags.duplicatesOnly || decide (2 ≤ n)) && (!flags.uniqueOnly || decide (n = 1))

def uniqShown (flags : UniqFlags) (rs : List (Bytes × Nat)) : List Bytes :=
  (rs.filter fun r => uniqSelects flags r.2).map fun r =>
    if flags.count then sixWide r.2 ++ 32 :: (r.1 ++ [newline]) else r.1 ++ [newline]

theorem uniq_modes_partition (count : Bool) (rs : List (Bytes × Nat)) (hpos : ∀ r ∈ rs, 0 < r.2) :
    (uniqShown ⟨count, true, false⟩ rs ++ uniqShown ⟨count, false, true⟩ rs).Perm
      (uniqShown ⟨count, false, false⟩ rs) := by
  have hrest : ∀ r ∈ rs, uniqSelects ⟨count, false, true⟩ r.2 =
      !uniqSelects ⟨count, true, false⟩ r.2 := by
    intro r hr
    have hr := hpos r hr
    rcases Nat.lt_or_eq_of_le hr with hlt | heq
    · have hne : r.2 ≠ 1 := by omega
      simp [uniqSelects, hne]
      omega
    · simp [uniqSelects, ← heq]
  have hall : ∀ r ∈ rs, uniqSelects ⟨count, false, false⟩ r.2 = true := fun r _ => rfl
  rw [uniqShown, uniqShown, uniqShown, List.filter_congr hrest, List.filter_eq_self.mpr hall,
    ← List.map_append]
  exact (List.filter_append_perm (fun r => uniqSelects ⟨count, true, false⟩ r.2) rs).map _

end Specification

section Segments

variable {flags : UniqFlags} {content raw : Bytes} {st : UniqState}

theorem take_concat (raw : Bytes) (c : UInt8) :
    (if (raw.take 1023).length < 1023 then raw.take 1023 ++ [c] else raw.take 1023) =
      (raw ++ [c]).take 1023 := by
  rw [List.length_take, List.take_append]
  split
  · rename_i hlt
    have hle : raw.length < 1023 := by omega
    rw [List.take_of_length_le (l := [c]) (by simp; omega)]
  · rename_i hge
    have hzero : 1023 - raw.length = 0 := by omega
    rw [hzero, List.take_zero, List.append_nil]

theorem uniqLoop_eq (flags : UniqFlags) (content raw : Bytes) (st : UniqState) :
    uniqLoop flags content (raw.take 1023) st =
      ((content.splitOn newline).modifyHead (raw ++ ·)).foldlM
        (fun st segment => uniqLine flags st (segment.take 1023)) st := by
  induction content generalizing raw st with
  | nil =>
    rw [List.splitOn_nil, List.modifyHead_cons, List.append_nil, List.foldlM_cons]
    cases hline : uniqLine flags st (raw.take 1023) <;>
      simp [uniqLoop, hline, bind, Except.bind, pure, Except.pure]
  | cons c content ih =>
    rw [uniqLoop, List.splitOn_cons_eq_if_modifyHead]
    by_cases hc : c = newline
    · subst hc
      rw [if_pos rfl, if_pos (by simp), List.modifyHead_cons, List.append_nil, List.foldlM_cons]
      congr 1
      funext st
      have hrest := ih [] st
      rw [List.take_nil, modifyHead_nil_append] at hrest
      exact hrest
    · have hsep : ¬ (c == newline) = true := by simpa using hc
      rw [take_concat, if_neg hc, if_neg hsep, ih (raw ++ [c]) st, modifyHead_concat]

end Segments

section Automaton

variable {flags : UniqFlags} {lines : List Bytes} {line prevLine : Bytes} {n : Nat}
variable {st st' : UniqState} {printed : List Bytes}

structure UniqLine (line : Bytes) : Prop where
  ne_nil : line ≠ []
  no_zero : 0 ∉ line
  fits : line.length ≤ 1023

def uniqFold (flags : UniqFlags) (st : UniqState) (lines : List Bytes) : Checked UniqState :=
  lines.foldlM (fun st segment => uniqLine flags st (segment.take 1023)) st

theorem uniqText_eq (flags : UniqFlags) (content : Bytes) : uniqText flags content =
    uniqFold flags ⟨[], 1, []⟩ (content.splitOn newline) >>= fun st =>
      .ok (st.printed ++ uniqPrint flags st.lineCount st.prevLine) := by
  have hloop := uniqLoop_eq flags content [] ⟨[], 1, []⟩
  rw [List.take_nil, modifyHead_nil_append] at hloop
  rw [uniqText, hloop]
  rfl

theorem UniqLine.taken (h : UniqLine line) : (line.take 1023).takeWhile (· ≠ 0) = line := by
  rw [List.take_of_length_le h.fits, List.takeWhile_eq_self_iff]
  exact fun c hc => by simpa using ne_of_mem_of_not_mem hc h.no_zero

theorem UniqLine.step (h : UniqLine line) (flags : UniqFlags) (st : UniqState) :
    uniqLine flags st (line.take 1023) =
      if line = st.prevLine then
        (fun lineCount => { st with lineCount := lineCount }) <$> checkedNat (st.lineCount + 1)
      else .ok ⟨line, 1, st.printed ++ uniqPrint flags st.lineCount st.prevLine⟩ := by
  rw [uniqLine, h.taken]
  rfl

def printRuns (flags : UniqFlags) (rs : List (Bytes × Nat)) : List Bytes :=
  rs.flatMap fun r => uniqPrint flags r.2 r.1

theorem uniqFold_runs (h : ∀ line ∈ lines, UniqLine line)
    (hbound : ∀ r ∈ runsFrom prevLine n lines, r.2 ≤ 2147483647) (printed : List Bytes) :
    ∃ front last, runsFrom prevLine n lines = front ++ [last] ∧
      uniqFold flags ⟨prevLine, n, printed⟩ lines =
        .ok ⟨last.1, last.2, printed ++ printRuns flags front⟩ := by
  induction lines generalizing prevLine n printed with
  | nil => exact ⟨[], (prevLine, n), rfl, by simp [uniqFold, printRuns, pure, Except.pure]⟩
  | cons line lines ih =>
    have hline := h line List.mem_cons_self
    have hlines := fun l hl => h l (List.mem_cons_of_mem line hl)
    rw [runsFrom] at hbound ⊢
    rw [uniqFold, List.foldlM_cons, hline.step]
    by_cases heq : line = prevLine
    · rw [if_pos heq] at hbound ⊢
      obtain ⟨k, rest, hruns⟩ := runsFrom_head prevLine (n + 1) lines
      have hle := hbound (prevLine, n + 1 + k) (by rw [hruns]; exact List.mem_cons_self)
      obtain ⟨front, last, hsplit, hfold⟩ := ih hlines hbound printed
      refine ⟨front, last, hsplit, ?_⟩
      rw [if_pos heq, checkedNat_ok (show n + 1 ≤ 2147483647 by omega)]
      exact hfold
    · rw [if_neg heq] at hbound ⊢
      obtain ⟨front, last, hsplit, hfold⟩ := ih hlines
        (fun r hr => hbound r (List.mem_cons_of_mem _ hr)) (printed ++ uniqPrint flags n prevLine)
      refine ⟨(prevLine, n) :: front, last, by rw [hsplit]; rfl, ?_⟩
      rw [if_neg heq]
      simp only [printRuns, List.flatMap_cons, ← List.append_assoc]
      exact hfold

theorem runs_bounded (h : ∀ line ∈ lines, UniqLine line) (hn : n ≤ 2147483647)
    (hrun : uniqFold flags ⟨prevLine, n, printed⟩ lines = .ok st) :
    ∀ r ∈ runsFrom prevLine n lines, r.2 ≤ 2147483647 := by
  induction lines generalizing prevLine n printed with
  | nil =>
    intro r hr
    rw [List.mem_singleton.mp hr]
    exact hn
  | cons line lines ih =>
    have hline := h line List.mem_cons_self
    have hlines := fun l hl => h l (List.mem_cons_of_mem line hl)
    rw [uniqFold, List.foldlM_cons, hline.step] at hrun
    rw [runsFrom]
    obtain ⟨st₁, hstep, hrest⟩ := Outcome.bind_eq_ok.mp hrun
    by_cases heq : line = prevLine
    · rw [if_pos heq] at hstep ⊢
      by_cases hle : n + 1 ≤ 2147483647
      · rw [checkedNat_ok hle] at hstep
        obtain rfl := Except.ok.inj hstep
        exact ih hlines hle hrest
      · rw [checkedNat_overflow (Nat.not_le.mp hle)] at hstep
        cases hstep
    · rw [if_neg heq] at hstep ⊢
      obtain rfl := Except.ok.inj hstep
      intro r hr
      rcases List.mem_cons.mp hr with rfl | hr
      · exact hn
      · exact ih hlines (by decide) hrest r hr

theorem uniqFold_append (flags : UniqFlags) (st : UniqState) (front behind : List Bytes) :
    uniqFold flags st (front ++ behind) =
      uniqFold flags st front >>= fun st => uniqFold flags st behind :=
  List.foldlM_append

theorem splitOn_cases (content : Bytes) :
    content.splitOn newline = linesOf newline content ++ [[]] ∨
      content.splitOn newline = linesOf newline content ∧ linesOf newline content ≠ [] := by
  rw [linesOf_eq_splitOn]
  split
  · rename_i hlast
    obtain ⟨front, hsplit⟩ := List.getLast?_eq_some_iff.mp hlast
    rw [hsplit, List.dropLast_concat]
    exact .inl rfl
  · exact .inr ⟨rfl, List.splitOn_ne_nil _ _⟩

theorem uniqText_runs {content : Bytes} (h : ∀ line ∈ linesOf newline content, UniqLine line)
    (hbound : ∀ r ∈ runs (linesOf newline content), r.2 ≤ 2147483647) :
    uniqText flags content = .ok (printRuns flags (runs (linesOf newline content))) := by
  rw [uniqText_eq]
  have hcases := splitOn_cases content
  cases hlines : linesOf newline content with
  | nil =>
    rw [hlines] at hcases
    rcases hcases with hsplit | ⟨-, hne⟩
    · rw [hsplit]
      rfl
    · exact absurd rfl hne
  | cons first rest =>
    rw [hlines] at h hbound hcases
    have hfirst := h first List.mem_cons_self
    obtain ⟨front, last, hruns, hfold⟩ := @uniqFold_runs flags rest first 1
      (fun l hl => h l (List.mem_cons_of_mem first hl)) hbound []
    have hstart : uniqFold flags ⟨[], 1, []⟩ (first :: rest) =
        .ok ⟨last.1, last.2, printRuns flags front⟩ := by
      rw [uniqFold, List.foldlM_cons, hfirst.step, if_neg hfirst.ne_nil]
      exact hfold
    have hall : printRuns flags (runs (first :: rest)) =
        printRuns flags front ++ uniqPrint flags last.2 last.1 := by
      rw [runs, hruns, printRuns, List.flatMap_append, List.flatMap_singleton, printRuns]
    rw [hall]
    rcases hcases with hsplit | ⟨hsplit, -⟩
    · have hlast : last.1 ∈ first :: rest := by
        refine (maximalRuns_runs (first :: rest)).fst_mem ?_
        rw [runs, hruns]
        exact List.mem_append_right _ List.mem_cons_self
      have hne : ([] : Bytes) ≠ last.1 := (h last.1 hlast).ne_nil.symm
      rw [hsplit, uniqFold_append, hstart]
      simp [uniqFold, uniqLine, hne, bind, Except.bind, pure, Except.pure, uniqPrint]
    · rw [hsplit, hstart]
      rfl

theorem bounded_of_uniqText {content : Bytes} (h : ∀ line ∈ linesOf newline content, UniqLine line)
    (hrun : uniqText flags content = .ok printed) :
    ∀ r ∈ runs (linesOf newline content), r.2 ≤ 2147483647 := by
  rw [uniqText_eq] at hrun
  obtain ⟨st, hfold, -⟩ := Outcome.bind_eq_ok.mp hrun
  obtain ⟨behind, hsplit⟩ : ∃ behind, content.splitOn newline = linesOf newline content ++ behind := by
    rcases splitOn_cases content with hsplit | ⟨hsplit, -⟩
    · exact ⟨_, hsplit⟩
    · exact ⟨[], by rw [hsplit, List.append_nil]⟩
  rw [hsplit, uniqFold_append] at hfold
  obtain ⟨st₁, hlines, -⟩ := Outcome.bind_eq_ok.mp hfold
  cases hl : linesOf newline content with
  | nil => nofun
  | cons first rest =>
    rw [hl] at h hlines
    have hfirst := h first List.mem_cons_self
    rw [uniqFold, List.foldlM_cons, hfirst.step, if_neg hfirst.ne_nil] at hlines
    exact runs_bounded (fun l hl => h l (List.mem_cons_of_mem first hl)) (by decide) hlines

structure UniqPrinted (st : UniqState) : Prop where
  no_zero : 0 ∉ st.prevLine
  fits : st.prevLine.length ≤ 1023
  printed : ∀ text ∈ st.printed, ∃ line, UniqLine line ∧ text = line ++ [newline]

theorem UniqPrinted.last (h : UniqPrinted st) (n : Nat) :
    ∀ text ∈ uniqPrint noFlags n st.prevLine, ∃ line, UniqLine line ∧ text = line ++ [newline] := by
  intro text htext
  rw [uniqPrint] at htext
  split at htext
  · rename_i hpos
    obtain rfl := List.mem_singleton.mp htext
    exact ⟨st.prevLine, ⟨List.length_pos_iff.mp hpos, h.no_zero, h.fits⟩, rfl⟩
  · cases htext

theorem UniqPrinted.next (h : UniqPrinted st) (segment : Bytes)
    (hstep : uniqLine noFlags st (segment.take 1023) = .ok st') : UniqPrinted st' := by
  rw [uniqLine] at hstep
  split at hstep
  · obtain ⟨n, -, hdone⟩ := Outcome.bind_eq_ok.mp hstep
    obtain rfl := Except.ok.inj hdone
    exact ⟨h.no_zero, h.fits, h.printed⟩
  · obtain rfl := Except.ok.inj hstep
    refine ⟨fun hzero => ?_, ?_, fun text htext => ?_⟩
    · simpa using List.mem_takeWhile_imp hzero
    · exact (List.takeWhile_prefix _).length_le.trans (List.length_take_le _ _)
    · rcases List.mem_append.mp htext with htext | htext
      · exact h.printed text htext
      · exact h.last _ text htext

theorem uniqText_printed {content : Bytes} (hrun : uniqText noFlags content = .ok printed) :
    ∀ text ∈ printed, ∃ line, UniqLine line ∧ text = line ++ [newline] := by
  rw [uniqText_eq] at hrun
  obtain ⟨st, hfold, hdone⟩ := Outcome.bind_eq_ok.mp hrun
  obtain rfl := Except.ok.inj hdone
  have hst : UniqPrinted st := by
    refine Outcome.foldlM_ok (P := UniqPrinted)
      (fun st segment st' _ h hstep => h.next segment hstep) ?_ hfold
    exact ⟨List.not_mem_nil, Nat.zero_le _, nofun⟩
  intro text htext
  rcases List.mem_append.mp htext with htext | htext
  · exact hst.printed text htext
  · exact hst.last _ text htext

theorem printRuns_eq (flags : UniqFlags) {rs : List (Bytes × Nat)} (hpos : ∀ r ∈ rs, 0 < r.2)
    (hlines : ∀ r ∈ rs, r.1 ≠ []) : printRuns flags rs = uniqShown flags rs := by
  induction rs with
  | nil => rfl
  | cons r rs ih =>
    have hr := hpos r List.mem_cons_self
    have hline := List.length_pos_iff.mpr (hlines r List.mem_cons_self)
    have hrest := ih (fun r hr => hpos r (List.mem_cons_of_mem _ hr))
      fun r hr => hlines r (List.mem_cons_of_mem _ hr)
    have hselect : (!(flags.duplicatesOnly && r.2 == 1) && !(flags.uniqueOnly && decide (1 < r.2))) =
        uniqSelects flags r.2 := by
      rw [uniqSelects]
      rcases Nat.lt_or_eq_of_le hr with hlt | heq
      · have hne : r.2 ≠ 1 := by omega
        have htwo : 2 ≤ r.2 := by omega
        simp [hlt, hne, htwo]
      · simp [← heq]
    rw [printRuns, List.flatMap_cons, ← printRuns, hrest, uniqPrint, if_pos hline, hselect, uniqShown,
      uniqShown, List.filter_cons]
    cases uniqSelects flags r.2 <;> rfl

end Automaton

section Law

variable {s t : VfsState} {filename text : Bytes} {flags : UniqFlags} {argv : List Bytes}

def UniqPrintsRuns (s : VfsState) (filename text : Bytes) : Prop :=
  ∃ rs, MaximalRuns (linesOf newline text) rs ∧
    (∀ argv flags, uniqArguments (noFlags, none) argv.tail = (flags, some filename) →
      ∃ t, uniqCommand s argv = .ok (uniqShown flags rs, t)) ∧
    ∀ count, (uniqShown ⟨count, true, false⟩ rs ++ uniqShown ⟨count, false, true⟩ rs).Perm
      (uniqShown ⟨count, false, false⟩ rs)

theorem uniqCommand_eq (hreach : Reachable s)
    (hread : readBytes s (buildFullPath 512 s.currentDirectory filename) = some text) :
    ∃ t, ∀ argv flags, uniqArguments (noFlags, none) argv.tail = (flags, some filename) →
      uniqCommand s argv = (fun printed => (printed, t)) <$> uniqText flags text := by
  obtain ⟨t, hshow⟩ := showFile_eq hreach hread
  refine ⟨t, fun argv flags hargs => ?_⟩
  have htail : argv.tail ≠ [] := fun hnil => by
    rw [hnil] at hargs
    cases (Prod.mk.inj hargs).2
  rw [uniqCommand, if_neg (two_le_of_tail htail), hargs]
  exact hshow _ (uniqText flags)

theorem lines_of_printed (hreach : Reachable s) (hname : filename ∉ [str "-c", str "-d", str "-u"])
    (hread : readBytes s (buildFullPath 512 s.currentDirectory filename) = some text)
    (h : UniqPrintsRuns s filename text) : (∀ line ∈ linesOf newline text, UniqLine line) ∧
      ∀ r ∈ runs (linesOf newline text), r.2 ≤ 2147483647 := by
  obtain ⟨t, hcommand⟩ := uniqCommand_eq hreach hread
  obtain ⟨rs, hruns, hprints, -⟩ := h
  have hplain : uniqArguments (noFlags, none) [str "uniq", filename].tail = (noFlags, some filename) := by
    simp only [List.mem_cons, not_or] at hname
    simp [uniqArguments, hname]
  obtain ⟨u, hrun⟩ := hprints _ _ hplain
  rw [hcommand _ _ hplain] at hrun
  obtain ⟨printed, htext, hdone⟩ := Outcome.map_eq_ok.mp hrun
  obtain rfl := (Prod.mk.inj hdone).1
  have hall : ∀ line ∈ linesOf newline text, UniqLine line := by
    intro line hline
    obtain ⟨r, hr, rfl⟩ := hruns.mem hline
    have hshown : r.1 ++ [newline] ∈ uniqShown noFlags rs :=
      List.mem_map.mpr ⟨r, List.mem_filter.mpr ⟨hr, rfl⟩, rfl⟩
    obtain ⟨printed, hprinted, heq⟩ := uniqText_printed htext _ hshown
    exact List.append_cancel_right heq ▸ hprinted
  exact ⟨hall, bounded_of_uniqText hall htext⟩

theorem uniq_prints_runs_iff (hreach : Reachable s)
    (hname : filename ∉ [str "-c", str "-d", str "-u"])
    (hread : readBytes s (buildFullPath 512 s.currentDirectory filename) = some text) :
    UniqPrintsRuns s filename text ↔
      (∀ line ∈ linesOf newline text, line ≠ [] ∧ 0 ∉ line ∧ line.length ≤ 1023) ∧
        ∀ r ∈ runs (linesOf newline text), r.2 ≤ 2147483647 := by
  constructor
  · intro h
    obtain ⟨hall, hbound⟩ := lines_of_printed hreach hname hread h
    exact ⟨fun line hline => ⟨(hall line hline).ne_nil, (hall line hline).no_zero,
      (hall line hline).fits⟩, hbound⟩
  · rintro ⟨hlines, hbound⟩
    obtain ⟨t, hcommand⟩ := uniqCommand_eq hreach hread
    have hall : ∀ line ∈ linesOf newline text, UniqLine line :=
      fun line hline => ⟨(hlines line hline).1, (hlines line hline).2.1, (hlines line hline).2.2⟩
    have hruns := maximalRuns_runs (linesOf newline text)
    refine ⟨_, hruns, fun argv flags hargs => ⟨t, ?_⟩,
      fun count => uniq_modes_partition count _ hruns.positive⟩
    rw [hcommand argv flags hargs, uniqText_runs hall hbound,
      printRuns_eq flags hruns.positive fun r hr => (hall _ (hruns.fst_mem hr)).ne_nil]
    rfl

end Law

section Concrete

theorem fruits_uniq : UniqPrintsRuns (mountedText fruits) (str "/m/f") fruits :=
  (uniq_prints_runs_iff reachable_fruits (by decide) (by decide +kernel)).mpr
    ⟨by decide +kernel, by decide +kernel⟩

def blankBetween : Bytes := str "a\n\nb\n"

theorem blank_line_dropped : Reachable (mountedText blankBetween) ∧
    readBytes (mountedText blankBetween) (str "/m/f") = some blankBetween ∧
      (Prod.fst <$> uniqCommand (mountedText blankBetween) [str "uniq", str "/m/f"] =
        .ok [str "a\n", str "b\n"]) ∧
        ¬ UniqPrintsRuns (mountedText blankBetween) (str "/m/f") blankBetween := by
  have hreach : Reachable (mountedText blankBetween) := by
    have hran := reachableBy_ran (fun _ _ => true) (hostWithText blankBetween)
      [.mountPersistent (str "/m") (str "C:\\d")] (by decide +kernel) (by decide +kernel)
    exact ⟨_, hran.mono fun _ _ _ => trivial⟩
  refine ⟨hreach, by decide +kernel, by decide +kernel, fun h => ?_⟩
  have hlines := (lines_of_printed hreach (by decide) (by decide +kernel) h).1
  exact (hlines [] (by decide +kernel)).ne_nil rfl

end Concrete

end ZoraVM.Shell
