import ZoraVM.Foundation.Lines
import ZoraVM.Unix.TextProc

namespace ZoraVM.Unix

open Foundation

section Source

def space : UInt8 := 32

-- The column is current_line_length.
def fillLoop (width : Int) (src : Bytes) (column : Nat) : Bytes :=
  match src with
  | [] => []
  | c :: src =>
    if c = space ∧ width - 10 ≤ column then newline :: fillLoop width (src.dropWhile (· = space)) 0
    else c :: fillLoop width src (column + 1)
termination_by src.length
decreasing_by
  · exact Nat.lt_succ_of_le (List.length_dropWhile_le _ _)
  · exact Nat.lt_succ_self _

def unixFormatParagraph (input : Bytes) (width : Int) : Bytes := fillLoop width input 0

end Source

section Filling

def wordEnds : Bytes := [space, newline]

-- The same text, but for line breaks in the place of runs of spaces.
inductive Filled : Bytes → Bytes → Prop
  | done : Filled [] []
  | keep {input output : Bytes} (c : UInt8) : Filled input output → Filled (c :: input) (c :: output)
  | breakLine {input output spaces : Bytes} : spaces ≠ [] → (∀ c ∈ spaces, c = space) →
      Filled input output → Filled (spaces ++ input) (newline :: output)

structure WellFilled (input output : Bytes) (width : Int) : Prop where
  same_words : words wordEnds output = words wordEnds input
  short_lines : ∀ line ∈ linesOf newline output, (line.length : Int) ≤ width
  breaks_at_spaces : Filled input output

end Filling

section Loop

variable {width : Int} {src input output line : Bytes} {c : UInt8} {column : Nat}

theorem fillLoop_nil : fillLoop width [] column = [] := by rw [fillLoop]

theorem fillLoop_break (h : width - 10 ≤ column) : fillLoop width (space :: src) column =
    newline :: fillLoop width (src.dropWhile (· = space)) 0 := by
  rw [fillLoop, if_pos ⟨rfl, h⟩]

theorem fillLoop_keep (h : ¬ (c = space ∧ width - 10 ≤ column)) :
    fillLoop width (c :: src) column = c :: fillLoop width src (column + 1) := by
  rw [fillLoop, if_neg h]

theorem fillLoop_filled (width : Int) (src : Bytes) (column : Nat) :
    Filled src (fillLoop width src column) := by
  induction src, column using fillLoop.induct width with
  | case1 column =>
    rw [fillLoop_nil]
    exact .done
  | case2 column c src hbreak ih =>
    obtain ⟨rfl, hcolumn⟩ := hbreak
    rw [fillLoop_break hcolumn]
    have hsplit : space :: src =
        (space :: src.takeWhile (· = space)) ++ src.dropWhile (· = space) := by
      rw [List.cons_append, List.takeWhile_append_dropWhile]
    rw [hsplit]
    refine .breakLine (List.cons_ne_nil _ _) (fun d hd => ?_) ih
    rcases List.mem_cons.mp hd with rfl | hd
    · rfl
    · simpa using List.mem_takeWhile_imp hd
  | case3 column c src hkeep ih =>
    rw [fillLoop_keep hkeep]
    exact .keep c ih

theorem Filled.words_append (h : Filled input output) (front : Bytes) :
    words wordEnds (front ++ output) = words wordEnds (front ++ input) := by
  induction h generalizing front with
  | done => rfl
  | keep c _ ih => simpa using ih (front ++ [c])
  | @breakLine input output spaces hne hspaces _ ih =>
    obtain ⟨b, more, rfl⟩ := List.exists_cons_of_ne_nil hne
    have hends : ∀ d ∈ b :: more, d ∈ wordEnds := fun d hd => by simp [wordEnds, hspaces d hd]
    have hmore : words wordEnds (more ++ input) = words wordEnds input :=
      words_append_of_delims (fun d hd => hends d (List.mem_cons_of_mem b hd)) input
    rw [words_append_cons (by simp [wordEnds]), List.cons_append,
      words_append_cons (hends b List.mem_cons_self), hmore]
    exact congrArg _ (ih [])

end Loop

section Widths

variable {width : Int} {src line : Bytes} {column : Nat}

theorem words_split (delims src : Bytes) : words delims src =
    words delims (src.takeWhile (· ∉ delims)) ++ words delims (src.dropWhile (· ∉ delims)) := by
  cases hrest : src.dropWhile (· ∉ delims) with
  | nil =>
    have hall := List.takeWhile_append_dropWhile (p := (· ∉ delims)) (l := src)
    rw [hrest, List.append_nil] at hall
    rw [hall, words_nil, List.append_nil]
  | cons d rest =>
    have hd : d ∈ delims := by
      have hhead := List.head?_dropWhile_not (· ∉ delims) src
      rw [hrest] at hhead
      simpa using hhead
    have hall := List.takeWhile_append_dropWhile (p := (· ∉ delims)) (l := src)
    rw [hrest] at hall
    conv_lhs => rw [← hall]
    rw [words_append_cons hd, words_cons hd]

theorem takeWhile_cons_end (src : Bytes) : (space :: src).takeWhile (· ∉ wordEnds) = [] := by
  simp [wordEnds]

theorem dropWhile_cons_end (src : Bytes) :
    (space :: src).dropWhile (· ∉ wordEnds) = space :: src := by
  simp [wordEnds]

structure Roomy (width : Int) (src : Bytes) (column : Nat) : Prop where
  room : column + ((src.takeWhile (· ∉ wordEnds)).length : Int) ≤ width
  short : ∀ w ∈ words wordEnds (src.dropWhile (· ∉ wordEnds)), w.length ≤ 10

theorem roomy_of_short (hshort : ∀ w ∈ words wordEnds src, w.length ≤ 10)
    (hcolumn : (column : Int) ≤ width - 10) : Roomy width src column := by
  rw [words_split] at hshort
  have hword : (src.takeWhile (· ∉ wordEnds)).length ≤ 10 := by
    by_cases hne : src.takeWhile (· ∉ wordEnds) = []
    · rw [hne]
      exact Nat.zero_le 10
    · refine hshort _ (List.mem_append_left _ ?_)
      rw [words_of_word hne fun c hc => by simpa using List.mem_takeWhile_imp hc]
      exact List.mem_singleton_self _
  exact ⟨by omega, fun w hw => hshort w (List.mem_append_right _ hw)⟩

theorem Roomy.next {c : UInt8} (h : Roomy width (c :: src) column) (hc : c ∉ wordEnds) :
    Roomy width src (column + 1) := by
  obtain ⟨hroom, hshort⟩ := h
  rw [List.takeWhile_cons, if_pos (by simpa using hc), List.length_cons] at hroom
  rw [List.dropWhile_cons, if_pos (by simpa using hc)] at hshort
  exact ⟨by push_cast at hroom ⊢; omega, hshort⟩

theorem Roomy.behind (h : Roomy width (space :: src) column) :
    ∀ w ∈ words wordEnds src, w.length ≤ 10 := by
  have hshort := h.short
  rwa [dropWhile_cons_end, words_cons (by simp [wordEnds])] at hshort

theorem Roomy.behind_spaces (h : Roomy width (space :: src) column) :
    ∀ w ∈ words wordEnds (src.dropWhile (· = space)), w.length ≤ 10 := by
  have hspaces : ∀ d ∈ src.takeWhile (· = space), d ∈ wordEnds := by
    intro d hd
    have hblank : d = space := by simpa using List.mem_takeWhile_imp hd
    simp [wordEnds, hblank]
  have hbehind := h.behind
  rwa [← List.takeWhile_append_dropWhile (p := (· = space)) (l := src),
    words_append_of_delims hspaces] at hbehind

-- What is written of the current line so far is generalised over.
theorem fillLoop_short (hwidth : 10 ≤ width) {front : Bytes} (hsrc : newline ∉ src)
    (hfront : newline ∉ front) (hroomy : Roomy width src front.length)
    (h : line ∈ linesOf newline (front ++ fillLoop width src front.length)) :
    (line.length : Int) ≤ width := by
  generalize hcolumn : front.length = column at hroomy h
  induction src, column using fillLoop.induct width generalizing front with
  | case1 column =>
    rw [fillLoop_nil, List.append_nil] at h
    have hroom := hroomy.room
    by_cases hne : front = []
    · simp [hne] at h
    · rw [linesOf_line hfront hne, List.mem_singleton] at h
      rw [h, hcolumn]
      simpa using hroom
  | case2 column c src hbreak ih =>
    obtain ⟨rfl, hlong⟩ := hbreak
    have hroom := hroomy.room
    rw [takeWhile_cons_end] at hroom
    rw [fillLoop_break hlong, linesOf_append_sep hfront] at h
    rcases List.mem_cons.mp h with rfl | h
    · simpa [hcolumn] using hroom
    · have hkept : ∀ d ∈ src.dropWhile (· = space), d ∈ src :=
        fun d hd => (List.dropWhile_sublist _).subset hd
      refine @ih [] (fun hin => hsrc (List.mem_cons_of_mem _ (hkept _ hin)))
        List.not_mem_nil rfl (roomy_of_short hroomy.behind_spaces ?_) h
      push_cast
      omega
  | case3 column c src hkeep ih =>
    have hc : newline ≠ c := List.ne_of_not_mem_cons hsrc
    rw [fillLoop_keep hkeep, List.append_cons] at h
    refine @ih (front ++ [c]) (List.not_mem_of_not_mem_cons hsrc) ?_ ?_ ?_ h
    · simp [hfront, hc]
    · simp [hcolumn]
    · by_cases hblank : c = space
      · subst hblank
        have hcolumn' : ¬ width - 10 ≤ column := fun hlong => hkeep ⟨rfl, hlong⟩
        refine roomy_of_short hroomy.behind ?_
        push_cast
        omega
      · exact hroomy.next (by simp [wordEnds, hblank, Ne.symm hc])

end Widths

section Results

variable {input : Bytes} {width : Int}

theorem paragraph_well_filled (hinput : newline ∉ input)
    (hshort : ∀ w ∈ words wordEnds input, w.length ≤ 10) (hwidth : 10 ≤ width) :
    WellFilled input (unixFormatParagraph input width) width := by
  have hfilled := fillLoop_filled width input 0
  refine ⟨hfilled.words_append [], fun line hline => ?_, hfilled⟩
  have hroomy : Roomy width input ([] : Bytes).length := by
    refine roomy_of_short hshort ?_
    simp only [List.length_nil, Nat.cast_zero]
    omega
  exact fillLoop_short hwidth hinput List.not_mem_nil hroomy hline

theorem paragraph_well_filled_short_words :
    WellFilled (str "one  two three") (unixFormatParagraph (str "one  two three") 12) 12 :=
  paragraph_well_filled (by decide) (by decide) (by decide)

end Results

end ZoraVM.Unix
