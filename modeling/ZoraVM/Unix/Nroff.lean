import ZoraVM.Foundation.WordLoop
import ZoraVM.Unix.GrepPartition
import ZoraVM.Unix.ParagraphFill

namespace ZoraVM.Unix

open Foundation Vfs

section Source

structure DocFormat where
  pageWidth : Int
  header : Bytes
  footer : Bytes

def requestMark : UInt8 := 46

structure NroffState where
  formatted : Bytes
  searched : Nat

-- `argument k` is the string that `line + k` points to.
def nroffRequest (line : Bytes) (argument : Nat → Outcome Bytes) : Outcome Bytes :=
  if (str ".TH").isPrefixOf line then (fun a => str "TITLE: " ++ (a ++ [newline])) <$> argument 4
  else if (str ".SH").isPrefixOf line then
    (fun a => newline :: (a ++ newline :: (List.replicate a.length 61 ++ [newline]))) <$> argument 4
  else if (str ".B").isPrefixOf line then (fun a => str "**" ++ (a ++ str "**")) <$> argument 3
  else if (str ".I").isPrefixOf line then (fun a => str "*" ++ (a ++ str "*")) <$> argument 3
  else .ok []

def nroffWritten (lineLength : Int) (line : Bytes) (argument : Nat → Outcome Bytes) : Outcome Bytes :=
  if line.head? = some requestMark then nroffRequest line argument
  else .ok (unixFormatParagraph line lineLength ++ [newline])

def nroffLine (lineLength : Int) (st : NroffState) (line : Bytes) (t : Strtok) :
    Outcome (Option (NroffState × Strtok)) := do
  let start := st.searched + ((t.text.drop st.searched).takeWhile (· ∈ [newline])).length
  let written ← nroffWritten lineLength line fun k => cstring (t.text.drop (start + k))
  let searched := match t.next with
    | .position i => i
    | _ => st.searched
  .ok (some (⟨st.formatted ++ written, searched⟩, t))

-- All that is written, whether it fits the buffer or not.
def nroffFormat (fuel : Nat) (format : Option DocFormat) (block : Bytes) :
    Outcome (Option (Bytes × Strtok)) := do
  let header := match format with
    | some f => if f.header = [] then [] else f.header ++ [newline, newline]
    | none => []
  let lineLength := match format with
    | some f => f.pageWidth
    | none => 80
  match ← forTokens [newline] (fun _ => true) (nroffLine lineLength) fuel ⟨header, 0⟩ block with
  | none => .ok none
  | some (st, t) =>
    let footer := match format with
      | some f => if f.footer = [] then [] else newline :: (f.footer ++ [newline])
      | none => []
    .ok (some (st.formatted ++ footer, t))

def unixNroff (fuel : Nat) (s : VfsState) (inputFile : Bytes) (outputFile : Option Bytes)
    (format : Option DocFormat) : Outcome (Option (Int × Bytes × VfsState)) := do
  match ← readInput s (some inputFile) [] with
  | (none, s) => .ok (some (1, [], s))
  | (some input, s) =>
    match ← nroffFormat fuel format input.text with
    | none => .ok none
    | some (formatted, t) =>
      let s := tokenised s input.data t.text
      let s ← match outputFile with
        | none => pure s
        | some path => Prod.snd <$> vfsWriteFile s path (.bytes formatted) formatted.length
      let s ← release s input.data
      .ok (some (0, formatted, s))

end Source

section Statements

def NroffFits (s : VfsState) (path : Bytes) : Prop :=
  ∃ input t formatted, readInput s (some path) [] = .ok (some input, t) ∧
    Settles (fun fuel => Option.map Prod.fst <$> nroffFormat fuel none input.text) formatted ∧
    formatted.length + 1 ≤ 2 * input.size

-- The argument of a request by itself is what comes behind the line.
def BareRequest (line : Bytes) : Prop := line ∈ [str ".TH", str ".SH", str ".B", str ".I"]

instance : DecidablePred BareRequest := fun line => inferInstanceAs (Decidable (line ∈ _))

def TightText (text : Bytes) : Prop :=
  ∃ c, c ≠ newline ∧ (c ≠ requestMark ∧ text = [c] ∨ text = str ".TH" ++ [c])

end Statements

section Lines

variable {line : Bytes} {argument argument' : Nat → Outcome Bytes} {width : Int}

theorem Filled.length_le {input output : Bytes} (h : Filled input output) :
    output.length ≤ input.length := by
  induction h with
  | done => exact Nat.le_refl 0
  | keep c _ ih => exact Nat.succ_le_succ ih
  | breakLine hne _ _ ih =>
    have hpos := List.length_pos_iff.mpr hne
    rw [List.length_cons, List.length_append]
    omega

theorem length_lt_of_begins {pre : Bytes} (h : pre.isPrefixOf line = true) (hne : line ≠ pre) :
    pre.length + 1 ≤ line.length := by
  obtain ⟨rest, rfl⟩ := List.isPrefixOf_iff_prefix.mp h
  have hrest : rest ≠ [] := by
    rintro rfl
    exact hne (List.append_nil pre)
  have hpos := List.length_pos_iff.mpr hrest
  rw [List.length_append]
  omega

def lineFormatted (width : Int) (line : Bytes) : Bytes :=
  ((nroffWritten width line fun k => .ok (line.drop k)).toOption).getD []

theorem nroffWritten_eq (hbare : ¬ BareRequest line)
    (hargument : ∀ k ≤ line.length, argument k = .ok (line.drop k)) :
    nroffWritten width line argument = .ok (lineFormatted width line) := by
  simp only [BareRequest, List.mem_cons, List.not_mem_nil, or_false, not_or] at hbare
  obtain ⟨hth, hsh, hb, hi⟩ := hbare
  unfold lineFormatted nroffWritten nroffRequest
  split
  · split
    · next h => rw [hargument 4 (length_lt_of_begins h hth)]; rfl
    · split
      · next h => rw [hargument 4 (length_lt_of_begins h hsh)]; rfl
      · split
        · next h => rw [hargument 3 (length_lt_of_begins h hb)]; rfl
        · split
          · next h => rw [hargument 3 (length_lt_of_begins h hi)]; rfl
          · rfl
  · rfl

theorem lineFormatted_cases (width : Int) (hbare : ¬ BareRequest line) (hne : line ≠ []) :
    line.head? ≠ some requestMark ∧
        lineFormatted width line = unixFormatParagraph line width ++ [newline] ∨
      (∃ title, line = str ".TH" ++ title ∧ title ≠ [] ∧
        (lineFormatted width line).length = title.length + 7) ∨
      line.head? = some requestMark ∧ (¬ ∃ title, line = str ".TH" ++ title) ∧
        (lineFormatted width line).length + 1 ≤ 2 * line.length := by
  simp only [BareRequest, List.mem_cons, List.not_mem_nil, or_false, not_or] at hbare
  obtain ⟨hth, hsh, hb, hi⟩ := hbare
  by_cases hmark : line.head? = some requestMark
  · right
    by_cases htitle : (str ".TH").isPrefixOf line = true
    · left
      obtain ⟨title, rfl⟩ := List.isPrefixOf_iff_prefix.mp htitle
      have htitle' : title ≠ [] := by
        rintro rfl
        exact hth (List.append_nil _)
      obtain ⟨c, title, rfl⟩ := List.exists_cons_of_ne_nil htitle'
      refine ⟨_, rfl, htitle', ?_⟩
      rw [lineFormatted, nroffWritten, if_pos hmark, nroffRequest, if_pos htitle]
      simp [Functor.map, Except.map, Except.toOption, str]
    · refine .inr ⟨hmark, ?_, ?_⟩
      · rintro ⟨title, rfl⟩
        exact htitle (List.isPrefixOf_iff_prefix.mpr (List.prefix_append _ _))
      · have hpos := List.length_pos_iff.mpr hne
        rw [lineFormatted, nroffWritten, if_pos hmark, nroffRequest, if_neg htitle]
        split
        · next h =>
          have hlong := length_lt_of_begins h hsh
          simp [Functor.map, Except.map, Except.toOption, str] at hlong ⊢
          omega
        · split
          · next h =>
            have hlong := length_lt_of_begins h hb
            simp [Functor.map, Except.map, Except.toOption, str] at hlong ⊢
            omega
          · split
            · next h =>
              have hlong := length_lt_of_begins h hi
              simp [Functor.map, Except.map, Except.toOption, str] at hlong ⊢
              omega
            · simp [Except.toOption]
              omega
  · exact .inl ⟨hmark, by rw [lineFormatted, nroffWritten, if_neg hmark]; rfl⟩

theorem length_unixFormatParagraph_le (line : Bytes) (width : Int) :
    (unixFormatParagraph line width).length ≤ line.length := (fillLoop_filled width line 0).length_le

theorem length_lineFormatted_le (width : Int) (hbare : ¬ BareRequest line) (hne : line ≠ []) :
    (lineFormatted width line).length ≤ 2 * line.length := by
  have hpos := List.length_pos_iff.mpr hne
  rcases lineFormatted_cases width hbare hne with ⟨_, heq⟩ | ⟨title, rfl, htitle, hlength⟩ |
    ⟨_, _, hlength⟩
  · have hfilled := length_unixFormatParagraph_le line width
    rw [heq, List.length_append, List.length_singleton]
    omega
  · have htitle' := List.length_pos_iff.mpr htitle
    rw [hlength, List.length_append]
    have hth : (str ".TH").length = 3 := by decide
    omega
  · omega

theorem tight_line_iff (hbare : ¬ BareRequest line) (hne : line ≠ []) (hnewline : newline ∉ line) :
    (lineFormatted 80 line).length + 1 ≤ 2 * line.length ↔ ¬ TightText line := by
  have hpos := List.length_pos_iff.mpr hne
  have hth : (str ".TH").length = 3 := by decide
  rcases lineFormatted_cases 80 hbare hne with ⟨hmark, heq⟩ | ⟨title, rfl, htitle, hlength⟩ |
    ⟨hmark, hother, hlength⟩
  · have hfilled := length_unixFormatParagraph_le line 80
    rw [heq, List.length_append, List.length_singleton]
    constructor
    · rintro hfit ⟨c, hc, ⟨_, rfl⟩ | rfl⟩
      · rw [unixFormatParagraph, fillLoop_keep (by simp), fillLoop_nil] at hfit
        simp at hfit
      · exact hmark rfl
    · intro hloose
      by_cases hone : line.length = 1
      · obtain ⟨c, rfl⟩ := List.length_eq_one_iff.mp hone
        refine absurd ⟨c, ?_, .inl ⟨?_, rfl⟩⟩ hloose
        · exact (List.ne_of_not_mem_cons hnewline).symm
        · rintro rfl
          exact hmark rfl
      · omega
  · rw [hlength, List.length_append]
    constructor
    · rintro hfit ⟨c, hc, ⟨hc', hone⟩ | htitle'⟩
      · have hlong := congrArg List.length hone
        rw [List.length_append, List.length_singleton] at hlong
        omega
      · obtain rfl := List.append_cancel_left htitle'
        rw [List.length_singleton] at hfit
        omega
    · intro hloose
      by_cases hone : title.length = 1
      · obtain ⟨c, rfl⟩ := List.length_eq_one_iff.mp hone
        refine absurd ⟨c, ?_, .inr rfl⟩ hloose
        rintro rfl
        exact hnewline (List.mem_append_right _ List.mem_cons_self)
      · have htitle' := List.length_pos_iff.mpr htitle
        omega
  · refine iff_of_true hlength ?_
    rintro ⟨c, hc, ⟨hc', rfl⟩ | rfl⟩
    · exact hc' (Option.some.inj hmark)
    · exact hother ⟨[c], rfl⟩

end Lines

section Loop

variable {text tail skip w behind : Bytes} {d : UInt8} {width : Int} {st : NroffState} {t : Strtok}
variable {fuel i : Nat}

theorem drop_ended (hdrop : t.text.drop i = skip ++ (w ++ d :: behind)) :
    (t.text.set (i + skip.length + w.length) 0).drop i = skip ++ (w ++ 0 :: behind) := by
  rw [List.drop_set, if_neg (by omega), hdrop, Nat.add_assoc, Nat.add_sub_cancel_left,
    List.set_append_right _ _ (by omega), Nat.add_sub_cancel_left, List.set_append_right _ _ (by omega),
    Nat.sub_self]
  rfl

theorem nroffLine_eq (hskip : ∀ c ∈ skip, c ∈ [newline]) (hne : w ≠ [])
    (hw : ∀ c ∈ w, c ∉ [newline] ∧ c ≠ 0) (hbare : ¬ BareRequest w)
    (hdrop : t.text.drop st.searched = skip ++ (w ++ 0 :: behind)) :
    ∃ st', nroffLine width st w t = .ok (some (st', t)) ∧
      st'.formatted = st.formatted ++ lineFormatted width w ∧
      ∀ i, t.next = .position i → st'.searched = i := by
  have hskipped : (t.text.drop st.searched).takeWhile (· ∈ [newline]) = skip := by
    obtain ⟨b, more, rfl⟩ := List.exists_cons_of_ne_nil hne
    rw [hdrop]
    exact takeWhile_skip hskip (hw b List.mem_cons_self).1 _
  have hargument : ∀ k ≤ w.length, cstring (t.text.drop (st.searched + skip.length + k)) =
      .ok (w.drop k) := by
    intro k hk
    have hzero : 0 ∉ w.drop k := fun hin => (hw 0 (List.mem_of_mem_drop hin)).2 rfl
    rw [← List.drop_drop, ← List.drop_drop, hdrop, List.drop_left, List.drop_append_of_le_length hk]
    exact cstring_ended hzero behind
  simp only [nroffLine, hskipped]
  rw [nroffWritten_eq hbare hargument]
  refine ⟨_, rfl, rfl, fun i hi => ?_⟩
  simp only [hi]

theorem nroffLoop (hzero : 0 ∉ text) (hbare : ∀ line ∈ words [newline] text, ¬ BareRequest line)
    (hnext : t.next = .position st.searched) (hdrop : t.text.drop st.searched = text ++ 0 :: tail)
    (hfuel : (words [newline] text).length < fuel) :
    ∃ st' t', (strtok [newline] t >>= fun found => tokenLoop [newline] (fun _ => true)
        (nroffLine width) fuel found.1 st found.2) = .ok (some (st', t')) ∧
      st'.formatted = st.formatted ++ (words [newline] text).flatMap (lineFormatted width) := by
  have hdelims : (0 : UInt8) ∉ [newline] := by decide
  induction fuel generalizing text t st with
  | zero => omega
  | succ fuel ih =>
    rcases delims_or_word [newline] text with hall | ⟨skip, w, hskip, hne, hw, rfl | ⟨d, rest, hd, rfl⟩⟩
    · have hnone : words [newline] text = [] := words_eq_nil_iff.mpr hall
      rw [strtok_skips hdelims hall hnext hdrop, hnone]
      exact ⟨st, _, rfl, by simp⟩
    · have hword : words [newline] (skip ++ w) = [w] := by
        rw [words_append_of_delims hskip, words_of_word hne hw]
      have hplain : ∀ c ∈ w, c ∉ [newline] ∧ c ≠ 0 := fun c hc =>
        ⟨hw c hc, ne_of_mem_of_not_mem (List.mem_append_right skip hc) hzero⟩
      rw [List.append_assoc] at hdrop
      rw [hword] at hbare hfuel ⊢
      obtain ⟨st', hline, hformatted, _⟩ := @nroffLine_eq skip w tail width st { t with next := .usedUp }
        hskip hne hplain (hbare w List.mem_cons_self) hdrop
      obtain ⟨fuel, rfl⟩ : ∃ k, fuel = k + 1 := ⟨fuel - 1, by simp at hfuel; omega⟩
      refine ⟨st', { t with next := .usedUp }, ?_, by simpa using hformatted⟩
      rw [strtok_word hskip hne hplain (.inr rfl) hnext hdrop, if_pos rfl]
      simp only [bind, Except.bind, tokenLoop, if_true, hline]
      rfl
    · have hword : words [newline] (skip ++ w ++ d :: rest) = w :: words [newline] rest := by
        rw [words_append_cons hd, words_append_of_delims hskip, words_of_word hne hw]
        rfl
      have hplain : ∀ c ∈ w, c ∉ [newline] ∧ c ≠ 0 := fun c hc =>
        ⟨hw c hc, ne_of_mem_of_not_mem (by simp [hc]) hzero⟩
      have hdzero : d ≠ 0 := ne_of_mem_of_not_mem hd hdelims
      simp only [List.append_assoc, List.cons_append] at hdrop
      rw [hword] at hbare hfuel ⊢
      obtain ⟨st', hline, hformatted, hsearched⟩ := @nroffLine_eq skip w (rest ++ 0 :: tail) width st
        ⟨t.text.set (st.searched + skip.length + w.length) 0,
          .position (st.searched + skip.length + w.length + 1)⟩
        hskip hne hplain (hbare w List.mem_cons_self) (drop_ended hdrop)
      have hsearched' := hsearched _ rfl
      obtain ⟨last, u, hloop, hlast⟩ := @ih rest st'
        ⟨t.text.set (st.searched + skip.length + w.length) 0,
          .position (st.searched + skip.length + w.length + 1)⟩
        (fun hin => hzero (by simp [hin])) (fun line hin => hbare line (List.mem_cons_of_mem w hin))
        (by rw [hsearched']) (by rw [hsearched']; exact drop_behind hdrop) (by simpa using hfuel)
      refine ⟨last, u, ?_, by rw [hlast, hformatted, List.flatMap_cons, List.append_assoc]⟩
      rw [strtok_word hskip hne hplain (.inl hd) hnext hdrop, if_neg hdzero]
      simp only [bind, Except.bind, tokenLoop, if_true, hline] at hloop ⊢
      exact hloop

end Loop

section Law

variable {s t : VfsState} {path text block : Bytes} {p size : Nat}

theorem nroff_settles (hzero : 0 ∉ text) (hbare : ∀ line ∈ words [newline] text, ¬ BareRequest line) :
    Settles (fun fuel => Option.map Prod.fst <$> nroffFormat fuel none (text ++ [0]))
      ((words [newline] text).flatMap (lineFormatted 80)) := by
  refine ⟨(words [newline] text).length + 1, fun fuel hfuel => ?_⟩
  obtain ⟨st, u, hloop, hformatted⟩ := @nroffLoop text [] 80 ⟨[], 0⟩ (strtokStart (text ++ [0])) fuel
    hzero hbare rfl rfl hfuel
  have hrun : forTokens [newline] (fun _ => true) (nroffLine 80) fuel ⟨[], 0⟩ (text ++ [0]) =
      .ok (some (st, u)) := hloop
  simp only [nroffFormat, hrun, bind, Except.bind, Functor.map, Except.map, Option.map_some,
    List.append_nil, hformatted, List.nil_append]

theorem length_formatted_le {lines : List Bytes}
    (h : ∀ line ∈ lines, line ≠ [] ∧ ¬ BareRequest line) :
    (lines.flatMap (lineFormatted 80)).length + 2 * lines.length ≤
      2 * (endedLines newline lines).length := by
  induction lines with
  | nil => exact Nat.zero_le _
  | cons line lines ih =>
    obtain ⟨hne, hbare⟩ := h line List.mem_cons_self
    have hline := length_lineFormatted_le 80 hbare hne
    have hrest := ih fun l hl => h l (List.mem_cons_of_mem line hl)
    simp only [endedLines, List.flatMap_cons, List.length_append, List.length_cons,
      List.length_nil] at hrest ⊢
    omega

theorem newline_not_mem_tight (h : TightText text) : newline ∉ text := by
  obtain ⟨c, hc, ⟨_, rfl⟩ | rfl⟩ := h
  · simpa using hc.symm
  · rw [List.mem_append, List.mem_singleton, not_or]
    exact ⟨by decide, hc.symm⟩

theorem formatted_fits_iff (hne : text ≠ [])
    (hbare : ∀ line ∈ words [newline] text, ¬ BareRequest line) :
    ((words [newline] text).flatMap (lineFormatted 80)).length + 1 ≤ 2 * text.length ↔
      ¬ TightText text := by
  by_cases hnewline : newline ∈ text
  · refine iff_of_true ?_ fun htight => newline_not_mem_tight htight hnewline
    have hlines : ∀ line ∈ words [newline] text, line ≠ [] ∧ ¬ BareRequest line := fun line hline =>
      ⟨(words_plain hline).1, hbare line hline⟩
    have hbound := length_formatted_le hlines
    have hended := (length_endedLines_sublist newline (words_sublist newline text)).trans
      (length_endedLines_le newline text)
    have hpos := List.length_pos_iff.mpr hne
    match hwords : words [newline] text with
    | [] =>
      rw [List.flatMap_nil, List.length_nil]
      omega
    | [line] =>
      have hlt := length_word_lt hnewline (hwords ▸ List.mem_cons_self)
      have hline := length_lineFormatted_le 80 (hbare line (hwords ▸ List.mem_cons_self))
        (hlines line (hwords ▸ List.mem_cons_self)).1
      rw [List.flatMap_singleton]
      omega
    | line :: next :: lines =>
      rw [hwords, List.length_cons, List.length_cons] at hbound
      rw [hwords] at hended
      omega
  · have hword : words [newline] text = [text] :=
      words_of_word hne fun c hc => by simpa using ne_of_mem_of_not_mem hc hnewline
    rw [hword, List.flatMap_singleton]
    exact tight_line_iff (hbare text (hword ▸ List.mem_cons_self)) hne hnewline

theorem unixNroff_eq (hread : vfsReadFile s path = .ok (some (some p, size), t))
    (hblock : t.blocks.get p = some block) (fuel : Nat) (format : Option DocFormat) :
    Option.map (fun r : Int × Bytes × VfsState => (r.1, r.2.1)) <$>
        unixNroff fuel s path none format =
      Option.map (Prod.mk 0) <$> Option.map Prod.fst <$> nroffFormat fuel format block := by
  simp only [unixNroff, readInput_text hread hblock, bind, Except.bind]
  cases nroffFormat fuel format block with
  | error e => rfl
  | ok ended =>
    cases ended with
    | none => rfl
    | some ended =>
      simp only [pure, Except.pure, release_tokenised hblock]
      rfl

theorem zero_of_settled {formatted : Bytes}
    (h : Settles (fun fuel => Option.map Prod.fst <$> nroffFormat fuel none block) formatted) :
    0 ∈ block := by
  by_contra hzero
  obtain ⟨enough, hrun⟩ := h
  obtain ⟨ended, hformat, hended⟩ := Outcome.map_eq_ok.mp (hrun enough (Nat.le_refl enough))
  obtain ⟨found, hloop, hrest⟩ := Outcome.bind_eq_ok.mp hformat
  cases found with
  | none =>
    obtain rfl := Except.ok.inj hrest
    cases hended
  | some found =>
    refine forTokens_unended hzero (fun _ => rfl) (fun st line u st' u' hline => ?_) enough _ found hloop
    obtain ⟨written, _, hdone⟩ := Outcome.bind_eq_ok.mp hline
    exact (Prod.mk.inj (Option.some.inj (Except.ok.inj hdone))).2.symm

theorem settled_of_fits (hreach : Reachable s) (hread : readBytes s path = some text) (hzero : 0 ∉ text)
    (h : NroffFits s path) : Terminated s path ∧ ∃ formatted,
      Settles (fun fuel => Option.map Prod.fst <$> nroffFormat fuel none (text ++ [0])) formatted ∧
      formatted.length + 1 ≤ 2 * text.length := by
  obtain ⟨p, t, rest, hcall, hblock, hrest⟩ := hreach.wellEnded.read hread
  obtain ⟨input, u, formatted, hinput, hsettles, hfits⟩ := h
  obtain ⟨hsame, _⟩ :=
    Prod.mk.inj (Except.ok.inj ((readInput_text hcall hblock []).symm.trans hinput))
  obtain rfl := Option.some.inj hsame
  have hin := zero_of_settled hsettles
  obtain rfl := (zero_behind_iff hzero hrest).mp hin
  exact ⟨(terminated_iff hcall hblock).mpr hin, formatted, hsettles, hfits⟩

theorem nroffFits_iff_answers (hreach : Reachable s) (hread : readBytes s path = some text) :
    NroffFits s path ↔ ∃ formatted,
      Settles (fun fuel => Option.map (fun r : Int × Bytes × VfsState => (r.1, r.2.1)) <$>
        unixNroff fuel s path none none) (0, formatted) ∧
      formatted.length + 1 ≤ 2 * text.length := by
  obtain ⟨p, t, rest, hcall, hblock, -⟩ := hreach.wellEnded.read hread
  have hanswer : ∀ formatted, Settles (fun fuel =>
      Option.map (fun r : Int × Bytes × VfsState => (r.1, r.2.1)) <$>
        unixNroff fuel s path none none) (0, formatted) ↔
      Settles (fun fuel => Option.map Prod.fst <$> nroffFormat fuel none (text ++ rest)) formatted := by
    intro formatted
    simp only [unixNroff_eq hcall hblock]
    exact settles_map_iff (Prod.mk_right_injective 0)
  constructor
  · rintro ⟨input, u, formatted, hinput, hsettles, hfits⟩
    obtain ⟨hsame, _⟩ :=
      Prod.mk.inj (Except.ok.inj ((readInput_text hcall hblock []).symm.trans hinput))
    obtain rfl := Option.some.inj hsame
    exact ⟨formatted, (hanswer formatted).mpr hsettles, hfits⟩
  · rintro ⟨formatted, hsettles, hfits⟩
    exact ⟨_, t, formatted, readInput_text hcall hblock [], (hanswer formatted).mp hsettles, hfits⟩

theorem fits_of_loose (hreach : Reachable s) (hread : readBytes s path = some text) (hzero : 0 ∉ text)
    (hne : text ≠ []) (hbare : ∀ line ∈ words [newline] text, ¬ BareRequest line)
    (hterminated : Terminated s path) (hloose : ¬ TightText text) : NroffFits s path := by
  obtain ⟨p, t, rest, hcall, hblock, hrest⟩ := hreach.wellEnded.read hread
  obtain rfl := (zero_behind_iff hzero hrest).mp ((terminated_iff hcall hblock).mp hterminated)
  exact ⟨_, t, _, readInput_text hcall hblock [], nroff_settles hzero hbare,
    (formatted_fits_iff hne hbare).mpr hloose⟩

theorem nroff_fits_iff (s : VfsState) (path text : Bytes) (hreach : Reachable s)
    (hread : readBytes s path = some text) (hzero : 0 ∉ text) (hne : text ≠ [])
    (hbare : ∀ line ∈ linesOf newline text, ¬ BareRequest line) :
    NroffFits s path ↔ Terminated s path ∧ ¬ TightText text := by
  have hbare' : ∀ line ∈ words [newline] text, ¬ BareRequest line := fun line hline =>
    hbare line ((words_sublist newline text).subset hline)
  constructor
  · intro h
    obtain ⟨hterminated, formatted, hsettles, hfits⟩ := settled_of_fits hreach hread hzero h
    rw [hsettles.unique (nroff_settles hzero hbare')] at hfits
    exact ⟨hterminated, (formatted_fits_iff hne hbare').mp hfits⟩
  · rintro ⟨hterminated, hloose⟩
    exact fits_of_loose hreach hread hzero hne hbare' hterminated hloose

theorem fruits_fit : NroffFits (mountedText fruits) (str "/m/f") := by
  have hloose : ¬ TightText fruits := fun htight => newline_not_mem_tight htight (by decide)
  exact (nroff_fits_iff _ _ _ reachable_fruits read_fruits (by decide) (by decide) (by decide)).mpr
    ⟨terminated_fruits, hloose⟩

def headings : Bytes := str ".SH\n.SH\n.SH\n"

theorem headings_formatted (k : Nat) :
    ((nroffFormat (k + 5) none (headings ++ [0])).toOption.bind id).map (fun r => r.1.length) = some 33 :=
  rfl

theorem headings_overflow : ¬ NroffFits (mountedText headings) (str "/m/f") := by
  have hreach := reachableBy_ran (fun _ _ => true) (hostWithText headings)
    [.mountPersistent (str "/m") (str "C:\\d")] (by decide +kernel) (by decide +kernel)
  intro h
  obtain ⟨_, formatted, ⟨enough, hrun⟩, hfits⟩ := settled_of_fits ⟨_, hreach.mono fun _ _ _ => trivial⟩
    (show readBytes (mountedText headings) (str "/m/f") = some headings by decide +kernel) (by decide) h
  obtain ⟨found, hformat, hended⟩ := Outcome.map_eq_ok.mp (hrun (enough + 5) (Nat.le_add_right _ _))
  have hlength := headings_formatted enough
  cases found with
  | none => cases hended
  | some found =>
    obtain rfl := Option.some.inj hended
    rw [hformat] at hlength
    have hformatted : found.1.length = 33 := Option.some.inj hlength
    have hheadings : headings.length = 12 := by decide
    omega

end Law

end ZoraVM.Unix
