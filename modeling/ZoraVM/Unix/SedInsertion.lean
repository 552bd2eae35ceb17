import ZoraVM.Unix.SedDeletion

namespace ZoraVM.Unix

open Foundation
open Kernel (IntConversion scanLiteral_cons)
open Network (decimalText StartsOutside startsOutside_cons)
open Shell (isSpace scanLiteral)

section Source

def appendLine (lineNum : Int) (appendText : Bytes) (o : SedOutput) (line : Bytes) :
    Option SedOutput :=
  let o := (o.separate).copy line
  let o := if (o.lineNumber : Int) = lineNum ∧ o.more then o.endLine.copy appendText else o
  some { o with lineNumber := o.lineNumber + 1 }

def insertLine (lineNum : Int) (insertText : Bytes) (o : SedOutput) (line : Bytes) :
    Option SedOutput :=
  let o := if (o.lineNumber : Int) = lineNum then ((o.separate).copy insertText).endLine else o
  let o := (o.separate).copy line
  some { o with lineNumber := o.lineNumber + 1 }

-- unix_sed_append and unix_sed_insert; `convert` is the int that "%d" stores for a number.
def sedAddStored (letter : UInt8) (addLine : Int → Bytes → SedOutput → Bytes → Option SedOutput)
    (convert : Int → Int) (fuel : Nat) (script input : Bytes) (outputSize : Nat) :
    Checked SedText :=
  match scanText letter script with
  | none => do
    let output ← Checked.of (sedCopy input outputSize 1)
    .ok (some (output, input))
  | some (lineNum, text) => numberedLines fuel input outputSize (addLine (convert lineNum) text)

def letterA : UInt8 := 97
def letterI : UInt8 := 105

variable {fuel outputSize : Nat} {script input : Bytes} {result : SedText}

theorem sedAdd_of_stored {letter : UInt8} {addLine : Int → Bytes → SedOutput → Bytes → Option SedOutput}
    (h : sedAddStored letter addLine id fuel script input outputSize = .ok result) :
    (match scanText letter script with
      | none => do
        let output ← sedCopy input outputSize 1
        .ok (some (output, input))
      | some (lineNum, text) => sedLines fuel input outputSize (addLine lineNum text)) =
      Except.ok result := by
  rw [sedAddStored] at h
  cases hscan : scanText letter script with
  | none =>
    rw [hscan] at h
    exact bind_of_checked h
  | some found =>
    rw [hscan] at h
    exact sedLines_of_numberedLines h

theorem unixSedAppend_of_stored
    (h : sedAddStored letterA appendLine id fuel script input outputSize = .ok result) :
    unixSedAppend fuel script input outputSize = .ok result := sedAdd_of_stored h

theorem unixSedInsert_of_stored
    (h : sedAddStored letterI insertLine id fuel script input outputSize = .ok result) :
    unixSedInsert fuel script input outputSize = .ok result := sedAdd_of_stored h

end Source

section Statements

-- "na\t" and "ni\t"
def addScript (letter : UInt8) (n : Nat) (t : Bytes) : Bytes :=
  decimalText n ++ letter :: backslash :: t

def withLine (k : Nat) (t : Bytes) (lines : List Bytes) : List Bytes :=
  lines.take k ++ t :: lines.drop k

def AddsLine (letter : UInt8) (addLine : Int → Bytes → SedOutput → Bytes → Option SedOutput)
    (text t : Bytes) (n k outputSize : Nat) : Prop :=
  ∀ convert, IntConversion convert → ∃ output,
    Settles (fun fuel => outputOf
      (sedAddStored letter addLine convert fuel (addScript letter n t) (text ++ [0]) outputSize))
      output ∧
    linesOf newline output = withLine k t (linesOf newline text)

def InsertsLine (text t : Bytes) (n outputSize : Nat) : Prop :=
  AddsLine letterI insertLine text t n (n - 1) outputSize

def AppendsLine (text t : Bytes) (n outputSize : Nat) : Prop :=
  AddsLine letterA appendLine text t n n outputSize

-- "%255s" takes t as it is, an int counts the lines, and the buffer has room for those there should be.
def Appendable (text t : Bytes) (n outputSize : Nat) : Prop :=
  (linesOf newline text).length < 2147483647 ∧ n < 2 ^ 31 ∧ t ≠ [] ∧ (∀ c ∈ t, isSpace c = false) ∧
    ([newline].intercalate (withLine n t (linesOf newline text))).length < outputSize

end Statements

section Scanning

variable {letter : UInt8} {n : Nat} {t : Bytes}

def scannedWord (t : Bytes) : Bytes :=
  ((t.dropWhile isSpace).take 255).takeWhile fun c => !isSpace c

theorem scannedWord_sublist (t : Bytes) : (scannedWord t).Sublist t :=
  (List.takeWhile_sublist _).trans ((List.take_sublist 255 _).trans (List.dropWhile_sublist _))

theorem scannedWord_outside (t : Bytes) : ∀ c ∈ scannedWord t, isSpace c = false := by
  intro c hc
  simpa using List.mem_takeWhile_imp hc

theorem scannedWord_of_word (hlen : t.length ≤ 255) (h : ∀ c ∈ t, isSpace c = false) :
    scannedWord t = t := by
  have hdrop : t.dropWhile isSpace = t := by
    cases t with
    | nil => rfl
    | cons c t => rw [List.dropWhile_cons, if_neg (by simp [h c List.mem_cons_self])]
  rw [scannedWord, hdrop, List.take_of_length_le hlen, List.takeWhile_eq_self_iff]
  intro c hc
  simp [h c hc]

theorem scanText_addScript (hletter : isDigit letter = false) :
    scanText letter (addScript letter n t) =
      if scannedWord t = [] then none else some ((n : Int), scannedWord t) := by
  have houtside : StartsOutside isDigit (letter :: backslash :: t) := startsOutside_cons.mpr hletter
  simp only [scanText, addScript, scanInt_decimalText houtside, Option.bind_eq_bind,
    Option.bind_some, scanLiteral_cons]
  rfl

theorem length_scannedWord_le (t : Bytes) : (scannedWord t).length ≤ t.length :=
  (scannedWord_sublist t).length_le

end Scanning

section WithLine

variable {k : Nat} {t t' line : Bytes} {lines : List Bytes}

theorem length_withLine (k : Nat) (t : Bytes) (lines : List Bytes) :
    (withLine k t lines).length = lines.length + 1 := by
  have hsplit := congrArg List.length (List.take_append_drop k lines)
  simp only [withLine, List.length_append, List.length_cons] at hsplit ⊢
  omega

theorem withLine_ne_nil (k : Nat) (t : Bytes) (lines : List Bytes) : withLine k t lines ≠ [] := by
  simp [withLine]

theorem withLine_inj (h : withLine k t lines = withLine k t' lines) : t = t' :=
  (List.cons.inj (List.append_cancel_left h)).1

theorem mem_withLine (h : line ∈ withLine k t lines) : line = t ∨ line ∈ lines := by
  rw [withLine, List.mem_append, List.mem_cons] at h
  rcases h with h | rfl | h
  · exact .inr (List.mem_of_mem_take h)
  · exact .inl rfl
  · exact .inr (List.mem_of_mem_drop h)

theorem sublist_withLine (k : Nat) (t : Bytes) (lines : List Bytes) :
    lines.Sublist (withLine k t lines) := by
  have hsub := (List.Sublist.refl (lines.take k)).append (List.sublist_cons_self t (lines.drop k))
  rwa [List.take_append_drop] at hsub

theorem length_intercalate_withLine (k : Nat) (lines : List Bytes) (hlen : t'.length ≤ t.length) :
    ([newline].intercalate (withLine k t' lines)).length ≤
      ([newline].intercalate (withLine k t lines)).length := by
  have ht := length_intercalate_add newline (withLine_ne_nil k t lines)
  have ht' := length_intercalate_add newline (withLine_ne_nil k t' lines)
  simp only [endedLines, withLine, List.flatMap_append, List.flatMap_cons, List.length_append] at ht ht'
  simp only [withLine]
  omega

end WithLine

section Writing

variable {m : Int} {room k j : Nat} {t line : Bytes} {lines : List Bytes} {o : SedOutput}
variable {written : List Bytes}

def appendEmit (m : Int) (t : Bytes) (k : Nat) (line : Bytes) : List Bytes :=
  if (k : Int) = m then [line, t] else [line]

-- The line feed behind t and the one before the next line leave a blank line between them.
def insertEmit (m : Int) (t : Bytes) (k : Nat) (line : Bytes) : List Bytes :=
  if (k : Int) = m then [t, [], line] else [line]

theorem emitted_elsewhere {emit : Nat → Bytes → List Bytes}
    (h : ∀ j, k ≤ j → j < k + lines.length → ∀ line, emit j line = [line]) :
    emitted (· + 1) emit k lines = lines := by
  induction lines generalizing k with
  | nil => rfl
  | cons line lines ih =>
    rw [List.length_cons] at h
    rw [emitted, h k (Nat.le_refl k) (by omega), ih fun j hk hj => h j (by omega) (by omega)]
    rfl

theorem emitted_appendEmit (h : j < lines.length) :
    emitted (· + 1) (appendEmit ((k + j : Nat) : Int) t) k lines = withLine (j + 1) t lines := by
  induction lines generalizing k j with
  | nil => cases h
  | cons line lines ih =>
    cases j with
    | zero =>
      have hrest : emitted (· + 1) (appendEmit ((k : Nat) : Int) t) (k + 1) lines = lines :=
        emitted_elsewhere fun i hi _ _ => if_neg (by omega)
      rw [Nat.add_zero, emitted, hrest, appendEmit, if_pos rfl]
      rfl
    | succ j =>
      have hrest := ih (k := k + 1) (Nat.lt_of_succ_lt_succ h)
      rw [show k + 1 + j = k + (j + 1) by omega] at hrest
      rw [emitted, hrest, appendEmit, if_neg (by omega)]
      rfl

theorem appendLine_emits (m : Int) (t : Bytes) (room : Nat) (line : Bytes) :
    Emits room (· + 1) (appendEmit m t) (appendLine m t) line := by
  intro o written h hfit
  by_cases hm : (o.lineNumber : Int) = m
  · rw [appendEmit, if_pos hm, show [line, t] = [line] ++ [t] from rfl, ← List.append_assoc] at hfit ⊢
    have hline := h.separate_copy ((length_intercalate_le newline _ _).trans hfit)
    have hmore : (o.separate.copy line).more = true := by
      apply hline.more
      rw [intercalate_concat (by simp), List.length_append, List.length_cons] at hfit
      omega
    refine ⟨_, ?_, (hline.endLine_copy (by simp) hfit).withLineNumber (o.lineNumber + 1), rfl⟩
    simp only [appendLine]
    rw [if_pos ⟨by simpa using hm, hmore⟩]
    simp
  · rw [appendEmit, if_neg hm] at hfit ⊢
    refine ⟨_, ?_, (h.separate_copy hfit).withLineNumber (o.lineNumber + 1), rfl⟩
    simp only [appendLine]
    rw [if_neg fun hboth => hm (by simpa using hboth.1)]
    simp

theorem insertLine_emits (m : Int) (t : Bytes) (room : Nat) (line : Bytes) :
    Emits room (· + 1) (insertEmit m t) (insertLine m t) line := by
  intro o written h hfit
  by_cases hm : (o.lineNumber : Int) = m
  · rw [insertEmit, if_pos hm, show [t, [], line] = [t] ++ ([[]] ++ [line]) from rfl,
      ← List.append_assoc, ← List.append_assoc] at hfit ⊢
    have hblank := (length_intercalate_le newline _ _).trans hfit
    have hadded := h.separate_copy ((length_intercalate_le newline _ _).trans hblank)
    have hended := hadded.endLine (by simp) hblank
    refine ⟨_, ?_, (hended.separate_copy hfit).withLineNumber (o.lineNumber + 1), rfl⟩
    simp only [insertLine]
    rw [if_pos hm]
    simp
  · rw [insertEmit, if_neg hm] at hfit ⊢
    refine ⟨_, ?_, (h.separate_copy hfit).withLineNumber (o.lineNumber + 1), rfl⟩
    simp only [insertLine]
    rw [if_neg hm]
    simp

theorem insertLine_prefix (m : Int) (t : Bytes) {o o' : SedOutput} {line text : Bytes}
    (h : text <+: o.text) (hcall : insertLine m t o line = some o') : text <+: o'.text := by
  have hcopied : ∀ o : SedOutput, o.text <+: ((o.separate).copy line).text := fun o =>
    (prefix_separate o).trans (prefix_copy _ line)
  obtain rfl := Option.some.inj hcall
  by_cases hm : (o.lineNumber : Int) = m
  · rw [if_pos hm]
    refine h.trans ((prefix_separate o).trans ((prefix_copy _ t).trans ?_))
    exact (prefix_endLine _).trans (hcopied _)
  · rw [if_neg hm]
    exact h.trans (hcopied o)

end Writing

section Adding

variable {letter : UInt8} {addLine : Int → Bytes → SedOutput → Bytes → Option SedOutput}
variable {text t output : Bytes} {n k outputSize : Nat} {convert : Int → Int}

theorem addStored_eq (hletter : isDigit letter = false) (hword : scannedWord t ≠ []) (fuel : Nat) :
    sedAddStored letter addLine convert fuel (addScript letter n t) (text ++ [0]) outputSize =
      numberedLines fuel (text ++ [0]) outputSize (addLine (convert n) (scannedWord t)) := by
  rw [sedAddStored, scanText_addScript hletter, if_neg hword]

theorem sedCopy_once (hzero : 0 ∉ text) : sedCopy (text ++ [0]) outputSize 1 =
    if text.length < outputSize then .ok text else .error .bufferOverflow := by
  rw [sedCopy, cstring_ended hzero]
  simp [bind, Except.bind]

theorem not_addsLine_of_blank (hletter : isDigit letter = false) (hzero : 0 ∉ text)
    (hword : scannedWord t = []) : ¬ AddsLine letter addLine text t n k outputSize := by
  intro h
  obtain ⟨output, ⟨enough, hrun⟩, hlines⟩ := h id fun _ _ _ => rfl
  have hcopy := hrun enough (Nat.le_refl enough)
  simp only [sedAddStored, scanText_addScript hletter, if_pos hword, sedCopy_once hzero] at hcopy
  by_cases hlt : text.length < outputSize
  · rw [if_pos hlt] at hcopy
    obtain rfl : text = output := Option.some.inj (Except.ok.inj hcopy)
    have hlength := congrArg List.length hlines
    rw [length_withLine] at hlength
    omega
  · rw [if_neg hlt] at hcopy
    cases hcopy

theorem expected_fits (hletter : isDigit letter = false) (hzero : 0 ∉ text)
    (h : AddsLine letter addLine text t n k outputSize) :
    ([newline].intercalate (withLine k t (linesOf newline text))).length < outputSize := by
  have hword : scannedWord t ≠ [] := fun hnil => not_addsLine_of_blank hletter hzero hnil h
  obtain ⟨output, hsettles, hlines⟩ := h id fun _ _ _ => rfl
  simp only [addStored_eq hletter hword] at hsettles
  have hsub : (withLine k t (linesOf newline text)).Sublist (linesOf newline output) := by
    rw [hlines]
  exact (length_intercalate_sublist hsub).trans_lt (settled_fits hzero (settles_of_numbered hsettles)).1

end Adding

section Appending

variable {text t output : Bytes} {n outputSize : Nat} {m : Int} {convert : Int → Int}

theorem append_settles (convert : Int → Int) (n : Nat) (hzero : 0 ∉ text)
    (hplain : ∀ line ∈ linesOf newline text, line ≠ []) (hword : scannedWord t ≠ [])
    (hfew : (linesOf newline text).length < 2147483647)
    (hfit : ([newline].intercalate (emitted (· + 1) (appendEmit (convert n) (scannedWord t)) 1
      (linesOf newline text))).length < outputSize) :
    Settles (fun fuel => outputOf (sedAddStored letterA appendLine convert fuel
      (addScript letterA n t) (text ++ [0]) outputSize))
      ([newline].intercalate (emitted (· + 1) (appendEmit (convert n) (scannedWord t)) 1
        (linesOf newline text))) := by
  refine ⟨text.length + 1, fun fuel hfuel => ?_⟩
  show outputOf _ = .ok (some _)
  rw [addStored_eq (by decide) hword, ← words_eq_linesOf hplain]
  rw [← words_eq_linesOf hplain] at hfew hfit
  exact numberedLines_emits hzero hfuel hfew (fun line _ => appendLine_emits _ _ _ line) hfit

theorem appended_lines (hn : 1 ≤ n) (hin : n ≤ (linesOf newline text).length) :
    emitted (· + 1) (appendEmit n t) 1 (linesOf newline text) = withLine n t (linesOf newline text) := by
  have hemit := emitted_appendEmit (k := 1) (j := n - 1) (t := t)
    (show n - 1 < (linesOf newline text).length by omega)
  rwa [show 1 + (n - 1) = n by omega, show n - 1 + 1 = n by omega] at hemit

theorem appended_plain (hplain : ∀ line ∈ linesOf newline text, line ≠ []) (ht : newline ∉ t)
    (hne : t ≠ []) : ∀ line ∈ withLine n t (linesOf newline text), line ≠ [] ∧ newline ∉ line := by
  intro line hline
  rcases mem_withLine hline with rfl | hline
  · exact ⟨hne, ht⟩
  · exact ⟨hplain line hline, not_mem_of_linesOf hline⟩

theorem appends_of_word (hzero : 0 ∉ text) (hplain : ∀ line ∈ linesOf newline text, line ≠ [])
    (hn : 1 ≤ n) (hin : n ≤ (linesOf newline text).length) (ht : newline ∉ t) (hlen : t.length ≤ 255)
    (h : Appendable text t n outputSize) : AppendsLine text t n outputSize := by
  obtain ⟨hfew, hint, hne, hspaces, hfit⟩ := h
  have hscanned : scannedWord t = t := scannedWord_of_word hlen hspaces
  intro convert hconvert
  have hn' : convert n = n := hconvert n (by omega) (by omega)
  rw [← appended_lines hn hin, ← hn', ← hscanned] at hfit
  refine ⟨_, append_settles convert n hzero hplain (hscanned.symm ▸ hne) hfew hfit, ?_⟩
  rw [hscanned, hn', appended_lines hn hin]
  exact linesOf_plain (appended_plain hplain ht hne)

theorem scanned_fits (hzero : 0 ∉ text) (hn : 1 ≤ n) (hin : n ≤ (linesOf newline text).length)
    (h : AppendsLine text t n outputSize) :
    ([newline].intercalate (emitted (· + 1) (appendEmit n (scannedWord t)) 1
      (linesOf newline text))).length < outputSize := by
  rw [appended_lines hn hin]
  exact (length_intercalate_withLine n (linesOf newline text)
    (length_scannedWord_le t)).trans_lt (expected_fits (by decide) hzero h)

theorem few_of_appends (hzero : 0 ∉ text) (hplain : ∀ line ∈ linesOf newline text, line ≠ [])
    (hn : 1 ≤ n) (hin : n ≤ (linesOf newline text).length) (h : AppendsLine text t n outputSize) :
    (linesOf newline text).length < 2147483647 := by
  by_contra hmany
  have hword : scannedWord t ≠ [] := fun hnil => not_addsLine_of_blank (by decide) hzero hnil h
  have hfit := scanned_fits hzero hn hin h
  obtain ⟨output, hsettles, -⟩ := h id fun _ _ _ => rfl
  simp only [addStored_eq (show isDigit letterA = false by decide) hword, id] at hsettles
  rw [← words_eq_linesOf hplain] at hmany hfit
  refine numbered_overflows hzero (Nat.not_lt.mp hmany)
    (fun line _ => appendLine_emits _ _ (outputSize - 1) line) (fun front line hsplit hline => ?_)
    hfit hsettles
  obtain ⟨behind, hbehind⟩ : ∃ behind, appendEmit n (scannedWord t)
      ((· + 1)^[front.length] 1) line = line :: behind := by
    unfold appendEmit
    split
    · exact ⟨_, rfl⟩
    · exact ⟨_, rfl⟩
  rw [hsplit, emitted_append, emitted, emitted, List.append_nil, hbehind] at hfit
  exact Nat.lt_sub_of_add_lt (Nat.lt_of_le_of_lt (length_intercalate_lt hline _ behind) hfit)

theorem number_of_appends (hzero : 0 ∉ text) (hplain : ∀ line ∈ linesOf newline text, line ≠ [])
    (hfew : (linesOf newline text).length < 2147483647) (h : AppendsLine text t n outputSize) :
    n < 2 ^ 31 := by
  by_contra hlarge
  have hword : scannedWord t ≠ [] := fun hnil => not_addsLine_of_blank (by decide) hzero hnil h
  obtain ⟨output, hsettles, hlines⟩ := h _ (converting 0)
  have hconverted : (if -2 ^ 31 ≤ (n : Int) ∧ (n : Int) < 2 ^ 31 then (n : Int) else 0) = 0 :=
    if_neg (by omega)
  have hsame : emitted (· + 1) (appendEmit 0 (scannedWord t)) 1 (linesOf newline text) =
      linesOf newline text := emitted_elsewhere fun j hj _ _ => if_neg (by omega)
  have hfewer : ([newline].intercalate (linesOf newline text)).length < outputSize :=
    (length_intercalate_le_of_sublist (sublist_withLine n t _)).trans_lt
      (expected_fits (by decide) hzero h)
  have hunchanged := append_settles (fun n => if -2 ^ 31 ≤ n ∧ n < 2 ^ 31 then n else 0) n hzero
    hplain hword hfew (by rw [hconverted, hsame]; exact hfewer)
  rw [hsettles.unique hunchanged, hconverted, hsame, linesOf_plain fun line hline =>
    ⟨hplain line hline, not_mem_of_linesOf hline⟩] at hlines
  have hlength := congrArg List.length hlines
  rw [length_withLine] at hlength
  omega

theorem scanned_of_appends (hzero : 0 ∉ text) (hplain : ∀ line ∈ linesOf newline text, line ≠ [])
    (hn : 1 ≤ n) (hin : n ≤ (linesOf newline text).length) (ht : newline ∉ t)
    (h : AppendsLine text t n outputSize) : scannedWord t = t := by
  have hfree : newline ∉ scannedWord t := fun hin => ht ((scannedWord_sublist t).subset hin)
  have hword : scannedWord t ≠ [] := fun hnil => not_addsLine_of_blank (by decide) hzero hnil h
  have hfew := few_of_appends hzero hplain hn hin h
  have hfit := scanned_fits hzero hn hin h
  obtain ⟨output, hsettles, hlines⟩ := h id fun _ _ _ => rfl
  rw [hsettles.unique (append_settles id n hzero hplain hword hfew hfit), id,
    appended_lines hn hin, linesOf_plain (appended_plain hplain hfree hword)] at hlines
  exact withLine_inj hlines

theorem word_of_appends (hzero : 0 ∉ text) (hplain : ∀ line ∈ linesOf newline text, line ≠ [])
    (hn : 1 ≤ n) (hin : n ≤ (linesOf newline text).length) (ht : newline ∉ t)
    (h : AppendsLine text t n outputSize) : Appendable text t n outputSize := by
  have hword : scannedWord t ≠ [] := fun hnil => not_addsLine_of_blank (by decide) hzero hnil h
  have hscanned := scanned_of_appends hzero hplain hn hin ht h
  have hfew := few_of_appends hzero hplain hn hin h
  refine ⟨hfew, number_of_appends hzero hplain hfew h, hscanned ▸ hword, ?_,
    expected_fits (by decide) hzero h⟩
  rw [← hscanned]
  exact scannedWord_outside t

end Appending

section Inserting

variable {text t : Bytes} {n outputSize : Nat}

theorem insertLine_at {m : Int} {room : Nat} {front : List Bytes} {o : SedOutput}
    (hholds : o.Holds room front) (hm : (o.lineNumber : Int) = m)
    (hfit : (endedLines newline (front ++ [t, []])).length ≤ room) (line : Bytes) :
    ∃ o', insertLine m t o line = some o' ∧ endedLines newline (front ++ [t, []]) <+: o'.text := by
  have hended : [newline].intercalate (front ++ [t, []]) ++ [newline] =
      endedLines newline (front ++ [t, []]) := intercalate_append_sep (by simp)
  rw [← hended, List.length_append, List.length_singleton] at hfit
  have hblank : ([newline].intercalate (front ++ [t] ++ [[]])).length ≤ room := by
    rw [List.append_assoc]
    exact Nat.le_of_succ_le hfit
  have hadded := hholds.separate_copy ((length_intercalate_le newline _ _).trans hblank)
  have hholds₂ := hadded.endLine (by simp) hblank
  generalize ho₂ : (o.separate.copy t).endLine = o₂ at hholds₂
  have htext : o₂.text = [newline].intercalate (front ++ [t, []]) := by
    rw [hholds₂.text, List.append_assoc]
    rfl
  have hmore : 0 < o₂.remaining := by
    have hspace := hholds₂.space
    rw [htext] at hspace
    omega
  have hseparated : o₂.separate.text = endedLines newline (front ++ [t, []]) := by
    rw [separate_of_room (by rw [hholds₂.first]; simp) hmore, ← hended, ← htext]
  refine ⟨{ o₂.separate.copy line with lineNumber := (o₂.separate.copy line).lineNumber + 1 }, ?_, ?_⟩
  · rw [insertLine, if_pos hm, ho₂]
  · rw [← hseparated]
    exact prefix_copy _ line

theorem inserted_prefix {m : Int} {room : Nat} {front behind : List Bytes} {line : Bytes}
    {o o' : SedOutput} (hholds : o.Holds room []) (hnumber : o.lineNumber = 1)
    (hm : m = (front.length + 1 : Nat))
    (hfit : (endedLines newline (front ++ [t, []])).length ≤ room)
    (hrun : wordLoop SedOutput.more (insertLine m t) (front ++ line :: behind) o = some o') :
    endedLines newline (front ++ [t, []]) <+: o'.text := by
  have hfront : emitted (· + 1) (insertEmit m t) o.lineNumber front = front :=
    emitted_elsewhere fun j _ hj _ => if_neg (by omega)
  have hplain : ([newline].intercalate front).length < room := by
    refine (length_intercalate_le newline front [t, []]).trans_lt ?_
    rwa [← intercalate_append_sep (by simp), List.length_append, List.length_singleton] at hfit
  obtain ⟨o₁, hloop, hholds₁, hnumber₁⟩ := wordLoop_holds
    (fun line _ => insertLine_emits m t room line) hholds (by rw [hfront]; exact hplain)
  rw [hfront, List.nil_append] at hholds₁
  have hm₁ : (o₁.lineNumber : Int) = m := by
    rw [hnumber₁, hnumber, hm, Nat.add_comm front.length 1]
    exact congrArg Nat.cast (Nat.succ_iterate 1 front.length)
  obtain ⟨o₂, hcall, hline⟩ := insertLine_at hholds₁ hm₁ hfit line
  rw [wordLoop_append, hloop, Option.bind_some, wordLoop, if_pos (hholds₁.more hplain), hcall,
    Option.bind_some] at hrun
  exact wordLoop_preserves (P := fun o => endedLines newline (front ++ [t, []]) <+: o.text)
    (fun _ _ _ => insertLine_prefix m t) hline hrun

theorem exists_split {α : Type} {lines : List α} {k : Nat} (h : k < lines.length) :
    ∃ front line behind, lines = front ++ line :: behind ∧ front.length = k := by
  refine ⟨lines.take k, lines[k], lines.drop (k + 1), ?_, List.length_take_of_le h.le⟩
  rw [← List.drop_eq_getElem_cons h, List.take_append_drop]

theorem not_insertsLine (hzero : 0 ∉ text) (hplain : ∀ line ∈ linesOf newline text, line ≠ [])
    (hn : 1 ≤ n) (hin : n ≤ (linesOf newline text).length) (ht : newline ∉ t) :
    ¬ InsertsLine text t n outputSize := by
  intro h
  have hfit := expected_fits (by decide) hzero h
  have hword : scannedWord t ≠ [] := fun hnil => not_addsLine_of_blank (by decide) hzero hnil h
  have hfree : newline ∉ scannedWord t := fun hin => ht ((scannedWord_sublist t).subset hin)
  obtain ⟨output, hsettles, hlines⟩ := h id fun _ _ _ => rfl
  simp only [addStored_eq (show isDigit letterI = false by decide) hword] at hsettles
  obtain ⟨hlt, o, hrun, rfl⟩ := settled_fits hzero (settles_of_numbered hsettles)
  rw [words_eq_linesOf hplain] at hrun
  obtain ⟨front, line, behind, hsplit, hlength⟩ :=
    exists_split (show n - 1 < (linesOf newline text).length by omega)
  have hwith : withLine (n - 1) t (linesOf newline text) = front ++ t :: line :: behind := by
    rw [withLine, hsplit, List.take_left' hlength, List.drop_left' hlength]
  rw [hwith] at hfit hlines
  have hline : line ∈ linesOf newline text := by simp [hsplit]
  have hparts : ∀ part ∈ front ++ [scannedWord t, []], newline ∉ part := by
    intro part hpart
    rcases List.mem_append.mp hpart with hpart | hpart
    · exact not_mem_of_linesOf (hsplit ▸ List.mem_append_left _ hpart)
    · simp only [List.mem_cons, List.not_mem_nil, or_false] at hpart
      rcases hpart with rfl | rfl
      · exact hfree
      · exact List.not_mem_nil
  have hend : (endedLines newline (front ++ [scannedWord t, []])).length ≤ outputSize - 1 := by
    have hall := length_intercalate_add newline (show front ++ t :: line :: behind ≠ [] by simp)
    have hshort := length_scannedWord_le t
    have hpos := List.length_pos_iff.mpr (hplain line hline)
    simp only [endedLines, List.flatMap_append, List.flatMap_cons, List.flatMap_nil,
      List.length_append, List.length_singleton, List.length_nil] at hall ⊢
    omega
  rw [hsplit] at hrun
  obtain ⟨rest, hrest⟩ := inserted_prefix (holds_start (by omega)) rfl
    (by rw [hlength, Nat.sub_add_cancel hn]; rfl) hend hrun
  rw [← hrest, ← intercalate_append_sep (by simp), List.append_assoc, List.singleton_append,
    linesOf_append, intercalate_append_sep (by simp), linesOf_endedLines hparts, List.append_assoc]
    at hlines
  have hbehind := List.append_cancel_left hlines
  exact hplain line hline (List.cons.inj (List.cons.inj hbehind).2).1.symm

theorem line_added_iff (text t : Bytes) (n outputSize : Nat) (hzero : 0 ∉ text)
    (hplain : ∀ line ∈ linesOf newline text, line ≠ []) (hn : 1 ≤ n)
    (hin : n ≤ (linesOf newline text).length) (ht : newline ∉ t) (hlen : t.length ≤ 255) :
    ¬ InsertsLine text t n outputSize ∧
      (AppendsLine text t n outputSize ↔ Appendable text t n outputSize) := by
  refine ⟨not_insertsLine hzero hplain hn hin ht, ?_⟩
  constructor
  · exact word_of_appends hzero hplain hn hin ht
  · exact appends_of_word hzero hplain hn hin ht hlen

theorem word_added_to_two_lines : ¬ InsertsLine (str "apple\nbanana\n") (str "plum") 2 39 ∧
    AppendsLine (str "apple\nbanana\n") (str "plum") 2 39 := by
  have h := line_added_iff (str "apple\nbanana\n") (str "plum") 2 39 (by decide) (by decide)
    (by decide) (by decide) (by decide) (by decide)
  have hspaces : (str "plum").all (isSpace · = false) := by decide
  exact ⟨h.1, h.2.mpr ⟨by decide, by decide, by decide, by simpa using hspaces, by decide⟩⟩

theorem lines_added_wrongly : ¬ InsertsLine (str "apple\nbanana\n") (str "plum") 2 39 ∧
    ¬ AppendsLine (str "apple\nbanana\n") (str "two plums") 2 39 := by
  refine ⟨not_insertsLine (by decide) (by decide) (by decide) (by decide) (by decide), fun h => ?_⟩
  have hword := word_of_appends (by decide) (by decide) (by decide) (by decide) (by decide) h
  exact absurd hword.2.2.2.1 (by decide)

end Inserting

end ZoraVM.Unix
