import ZoraVM.Kernel.DottedQuads
import ZoraVM.Unix.SedOutput

namespace ZoraVM.Unix

open Foundation
open Kernel (IntConversion scanLiteral_cons)
open Network (decimalText scanInt_eq scanNumeral_decimalText StartsOutside startsOutside_cons
  numeralOf_value)
open Shell (scanLiteral)

section Source

def deletedRange (script : Bytes) : Option (Int × Int) :=
  match scanRange script with
  | some range => some range
  | none => (scanInt script).map fun p => (p.1, p.1)

def deleteLine (startLine endLine : Int) (o : SedOutput) (line : Bytes) : Option SedOutput :=
  let kept :=
    if (o.lineNumber : Int) < startLine ∨ (o.lineNumber : Int) > endLine then (o.separate).copy line
    else o
  some { kept with lineNumber := kept.lineNumber + 1 }

-- unix_sed_delete_lines; `convert` is the int that "%d" stores for a number.
def unixSedDeleteStored (convert : Int → Int) (fuel : Nat) (script input : Bytes)
    (outputSize : Nat) : Checked SedText :=
  match deletedRange script with
  | none => do
    let output ← Checked.of (sedCopy input outputSize 1)
    .ok (some (output, input))
  | some (startLine, endLine) =>
    numberedLines fuel input outputSize (deleteLine (convert startLine) (convert endLine))

theorem unixSedDeleteLines_eq (fuel : Nat) (script input : Bytes) (outputSize : Nat) :
    unixSedDeleteLines fuel script input outputSize =
      match deletedRange script with
      | none => do
        let output ← sedCopy input outputSize 1
        .ok (some (output, input))
      | some (startLine, endLine) => sedLines fuel input outputSize (deleteLine startLine endLine) := by
  unfold unixSedDeleteLines deletedRange
  cases scanRange script with
  | none => cases scanInt script <;> rfl
  | some range => rfl

theorem unixSedDeleteLines_of_stored {fuel outputSize : Nat} {script input : Bytes} {result : SedText}
    (h : unixSedDeleteStored id fuel script input outputSize = .ok result) :
    unixSedDeleteLines fuel script input outputSize = .ok result := by
  rw [unixSedDeleteStored] at h
  rw [unixSedDeleteLines_eq]
  cases hrange : deletedRange script with
  | none =>
    rw [hrange] at h
    exact bind_of_checked h
  | some range =>
    rw [hrange] at h
    exact sedLines_of_numberedLines h

end Source

section Statements

def comma : UInt8 := 44
def letterD : UInt8 := 100

-- "a,bd", and "ad" for "a,ad".
def DeleteScript (a b : Nat) (script : Bytes) : Prop :=
  script = decimalText a ++ comma :: (decimalText b ++ [letterD]) ∨
    a = b ∧ script = decimalText a ++ [letterD]

def keptLines (first last : Int) (lines : List Bytes) : List Bytes :=
  ((lines.zipIdx 1).filter fun p => (p.2 : Int) < first ∨ last < (p.2 : Int)).map Prod.fst

def DeletesLines (text script : Bytes) (a b outputSize : Nat) : Prop :=
  ∀ convert, IntConversion convert → ∃ output,
    Settles (fun fuel => outputOf (unixSedDeleteStored convert fuel script (text ++ [0]) outputSize))
      output ∧
    linesOf newline output = keptLines a b (linesOf newline text)

-- No blank line is numbered, or what is deleted is the end of the text from before the first one.
-- A number that an int has no room for may delete any lines, so there are only blank ones to delete.
def NumbersAgree (a b : Nat) (lines : List Bytes) : Prop :=
  if b < 2 ^ 31 then
    (∀ line ∈ lines, line ≠ []) ∨ lines.length ≤ b ∧ ∀ line ∈ lines.take (a - 1), line ≠ []
  else
    lines = [] ∨ a < 2 ^ 31 ∧ lines.length ≤ b ∧ (∀ line ∈ lines.take (a - 1), line ≠ []) ∧
      ∀ line ∈ lines.drop (a - 1), line = []

end Statements

section Scanning

variable {a b : Nat} {script : Bytes}

theorem comma_outside (rest : Bytes) : StartsOutside isDigit (comma :: rest) :=
  startsOutside_cons.mpr (by decide)

theorem letterD_outside (rest : Bytes) : StartsOutside isDigit (letterD :: rest) :=
  startsOutside_cons.mpr (by decide)

theorem scanInt_decimalText {rest : Bytes} (h : StartsOutside isDigit rest) :
    scanInt (decimalText a ++ rest) = some ((a : Int), rest) := by
  rw [scanInt_eq, scanNumeral_decimalText h]
  simp

theorem deletedRange_script (h : DeleteScript a b script) : deletedRange script = some (↑a, ↑b) := by
  rcases h with rfl | ⟨rfl, rfl⟩
  · have hrange : scanRange (decimalText a ++ comma :: (decimalText b ++ [letterD])) =
        some (↑a, ↑b) := by
      simp only [scanRange, scanInt_decimalText (comma_outside _), Option.bind_eq_bind,
        Option.bind_some, show (44 : UInt8) = comma from rfl, scanLiteral_cons,
        scanInt_decimalText (letterD_outside [])]
    rw [deletedRange, hrange]
  · have hrange : scanRange (decimalText a ++ [letterD]) = none := by
      simp only [scanRange, scanInt_decimalText (letterD_outside []), Option.bind_eq_bind,
        Option.bind_some]
      rfl
    rw [deletedRange, hrange, scanInt_decimalText (letterD_outside [])]
    rfl

end Scanning

section Keeping

variable {first last : Int} {a b k : Nat} {line : Bytes} {lines : List Bytes}

theorem keptLines_sublist (first last : Int) (lines : List Bytes) :
    (keptLines first last lines).Sublist lines := by
  have h := (List.filter_sublist (p := fun p : Bytes × Nat => (p.2 : Int) < first ∨ last < (p.2 : Int))
    (l := lines.zipIdx 1)).map Prod.fst
  rwa [List.zipIdx_map_fst] at h

theorem keptLines_eq_self (h : ∀ k : Nat, 1 ≤ k → k ≤ lines.length → (k : Int) < first ∨ last < k) :
    keptLines first last lines = lines := by
  rw [keptLines, List.filter_eq_self.mpr, List.zipIdx_map_fst]
  intro p hp
  obtain ⟨hge, hlt, -⟩ := List.mem_zipIdx hp
  simpa using h p.2 hge (by omega)

theorem keptLines_take_drop (hab : a ≤ b) (lines : List Bytes) :
    keptLines a b lines = lines.take (a - 1) ++ lines.drop b := by
  have hfrom : ∀ (lines : List Bytes) (k : Nat),
      ((lines.zipIdx k).filter fun p => (p.2 : Int) < a ∨ (b : Int) < p.2).map Prod.fst =
        lines.take (a - k) ++ lines.drop (b + 1 - k) := by
    intro lines
    induction lines with
    | nil => simp
    | cons line lines ih =>
      intro k
      rw [List.zipIdx_cons, List.filter_cons]
      rcases Nat.lt_or_ge k a with hka | hka
      · obtain ⟨n, hn⟩ : ∃ n, a - k = n + 1 := ⟨a - k - 1, by omega⟩
        obtain ⟨m, hm⟩ : ∃ m, b + 1 - k = m + 1 := ⟨b - k, by omega⟩
        have hin : ((k : Int) < a ∨ (b : Int) < k) := .inl (by omega)
        rw [if_pos (by simpa using hin), List.map_cons, ih, hn, hm, List.take_succ_cons,
          List.drop_succ_cons, show a - (k + 1) = n by omega, show b + 1 - (k + 1) = m by omega]
        rfl
      · rw [show a - k = 0 by omega, List.take_zero, List.nil_append]
        rcases Nat.lt_or_ge b k with hbk | hbk
        · have hin : ((k : Int) < a ∨ (b : Int) < k) := .inr (by omega)
          rw [if_pos (by simpa using hin), List.map_cons, ih, show b + 1 - k = 0 by omega,
            show a - (k + 1) = 0 by omega, show b + 1 - (k + 1) = 0 by omega]
          rfl
        · obtain ⟨m, hm⟩ : ∃ m, b + 1 - k = m + 1 := ⟨b - k, by omega⟩
          have hout : ¬ ((k : Int) < a ∨ (b : Int) < k) := by omega
          rw [if_neg (by simpa using hout), ih, hm, List.drop_succ_cons,
            show a - (k + 1) = 0 by omega, show b + 1 - (k + 1) = m by omega]
          rfl
  exact hfrom lines 1

end Keeping

section Writing

variable {u v : Int} {room outputSize : Nat} {line text output script : Bytes} {lines : List Bytes}

def deleteEmit (u v : Int) (k : Nat) (line : Bytes) : List Bytes :=
  if (k : Int) < u ∨ v < (k : Int) then [line] else []

theorem emitted_deleteEmit (u v : Int) (lines : List Bytes) :
    emitted (· + 1) (deleteEmit u v) 1 lines = keptLines u v lines := by
  have hfrom : ∀ (lines : List Bytes) (k : Nat), emitted (· + 1) (deleteEmit u v) k lines =
      ((lines.zipIdx k).filter fun p => (p.2 : Int) < u ∨ v < (p.2 : Int)).map Prod.fst := by
    intro lines
    induction lines with
    | nil => exact fun _ => rfl
    | cons line lines ih =>
      intro k
      rw [emitted, ih, deleteEmit, List.zipIdx_cons, List.filter_cons]
      by_cases hin : (k : Int) < u ∨ v < (k : Int)
      · rw [if_pos hin, if_pos (by simpa using hin)]
        rfl
      · rw [if_neg hin, if_neg (by simpa using hin)]
        rfl
  exact hfrom lines 1

theorem deleteLine_emits (u v : Int) (room : Nat) (line : Bytes) :
    Emits room (· + 1) (deleteEmit u v) (deleteLine u v) line := by
  intro o written h hfit
  by_cases hin : (o.lineNumber : Int) < u ∨ v < (o.lineNumber : Int)
  · rw [deleteEmit, if_pos hin] at hfit ⊢
    refine ⟨_, by rw [deleteLine, if_pos hin], (h.separate_copy hfit).withLineNumber _, ?_⟩
    simp
  · rw [deleteEmit, if_neg hin, List.append_nil]
    exact ⟨_, by rw [deleteLine, if_neg hin], h.withLineNumber _, rfl⟩

theorem delete_settles {convert : Int → Int} {a b : Nat} (hzero : 0 ∉ text)
    (hfew : (words [newline] text).length < 2147483647) (hscript : DeleteScript a b script)
    (hsize : text.length < outputSize) :
    Settles (fun fuel => outputOf (unixSedDeleteStored convert fuel script (text ++ [0]) outputSize))
      ([newline].intercalate (keptLines (convert a) (convert b) (words [newline] text))) := by
  have hfit : ([newline].intercalate (emitted (· + 1) (deleteEmit (convert a) (convert b)) 1
      (words [newline] text))).length < outputSize := by
    rw [emitted_deleteEmit]
    exact (length_intercalate_sublist
      ((keptLines_sublist _ _ _).trans (words_sublist newline text))).trans_lt hsize
  refine ⟨text.length + 1, fun fuel hfuel => ?_⟩
  have hlines := numberedLines_emits hzero hfuel hfew
    (fun line _ => deleteLine_emits (convert a) (convert b) (outputSize - 1) line) hfit
  rw [emitted_deleteEmit] at hlines
  simp only [unixSedDeleteStored, deletedRange_script hscript]
  exact hlines

theorem few_of_deletes {a b : Nat} (hzero : 0 ∉ text) (hscript : DeleteScript a b script)
    (hsize : text.length < outputSize) (h : DeletesLines text script a b outputSize) :
    (words [newline] text).length < 2147483647 := by
  by_contra hmany
  obtain ⟨output, hsettles, -⟩ := h id fun _ _ _ => rfl
  simp only [unixSedDeleteStored, deletedRange_script hscript, id] at hsettles
  refine numbered_overflows hzero (Nat.not_lt.mp hmany)
    (fun line _ => deleteLine_emits _ _ (outputSize - 1) line) (fun front line hsplit hline => ?_) ?_ hsettles
  · rw [emitted_deleteEmit]
    have hall := length_intercalate_sublist (words_sublist newline text)
    have hfront := length_intercalate_lt hline front []
    rw [← hsplit] at hfront
    have hkept : ([newline].intercalate (keptLines a b front)).length ≤
        ([newline].intercalate front).length :=
      length_intercalate_le_of_sublist (keptLines_sublist a b front)
    omega
  · rw [emitted_deleteEmit]
    exact (length_intercalate_sublist
      ((keptLines_sublist _ _ _).trans (words_sublist newline text))).trans_lt hsize

theorem deletesLines_iff_kept {a b : Nat} (hzero : 0 ∉ text)
    (hfew : (words [newline] text).length < 2147483647) (hscript : DeleteScript a b script)
    (hsize : text.length < outputSize) : DeletesLines text script a b outputSize ↔
      ∀ convert, IntConversion convert →
        keptLines (convert a) (convert b) (words [newline] text) =
          keptLines a b (linesOf newline text) := by
  have hshown : ∀ u v, linesOf newline ([newline].intercalate (keptLines u v (words [newline] text))) =
      keptLines u v (words [newline] text) := fun u v =>
    linesOf_plain fun line hline => words_plain ((keptLines_sublist _ _ _).subset hline)
  constructor
  · intro h convert hconvert
    obtain ⟨output, hsettles, hlines⟩ := h convert hconvert
    rwa [hsettles.unique (delete_settles hzero hfew hscript hsize), hshown] at hlines
  · intro h convert hconvert
    exact ⟨_, delete_settles hzero hfew hscript hsize, by rw [hshown, h convert hconvert]⟩

end Writing

section Numbering

variable {a b : Nat} {lines : List Bytes}

def plainLines (lines : List Bytes) : List Bytes := lines.filter fun line => !line.isEmpty

theorem plainLines_eq_self_iff : plainLines lines = lines ↔ ∀ line ∈ lines, line ≠ [] := by
  rw [plainLines, List.filter_eq_self]
  simp

theorem plainLines_eq_nil_iff : plainLines lines = [] ↔ ∀ line ∈ lines, line = [] := by
  rw [plainLines, List.filter_eq_nil_iff]
  simp

theorem plainLines_append (front behind : List Bytes) :
    plainLines (front ++ behind) = plainLines front ++ plainLines behind := List.filter_append ..

theorem plainLines_sublist (lines : List Bytes) : (plainLines lines).Sublist lines :=
  List.filter_sublist

theorem words_eq_plainLines (text : Bytes) :
    words [newline] text = plainLines (linesOf newline text) := words_eq_filter newline text

theorem plainLines_split (k : Nat) (h : ∀ line ∈ lines.take k, line ≠ []) :
    plainLines lines = lines.take k ++ plainLines (lines.drop k) := by
  calc plainLines lines = plainLines (lines.take k ++ lines.drop k) := by rw [List.take_append_drop]
    _ = lines.take k ++ plainLines (lines.drop k) := by
      rw [plainLines_append, plainLines_eq_self_iff.mpr h]

theorem take_plainLines {k : Nat} (h : ∀ line ∈ lines.take k, line ≠ []) :
    (plainLines lines).take k = lines.take k := by
  rcases Nat.le_total lines.length k with hk | hk
  · rw [List.take_of_length_le hk] at h ⊢
    rw [plainLines_eq_self_iff.mpr h, List.take_of_length_le hk]
  · rw [plainLines_split k h]
    exact List.take_left' (List.length_take_of_le hk)

theorem plain_of_kept (hab : a ≤ b) (h : (keptLines a b lines).Sublist (plainLines lines)) :
    (∀ line ∈ lines.take (a - 1), line ≠ []) ∧ ∀ line ∈ lines.drop b, line ≠ [] := by
  have hplain : ∀ line ∈ keptLines a b lines, line ≠ [] := fun line hline => by
    simpa using (List.mem_filter.mp (h.subset hline)).2
  rw [keptLines_take_drop hab] at hplain
  exact ⟨fun line hline => hplain line (List.mem_append_left _ hline),
    fun line hline => hplain line (List.mem_append_right _ hline)⟩

theorem kept_agrees_iff (hab : a ≤ b) : keptLines a b (plainLines lines) = keptLines a b lines ↔
    (∀ line ∈ lines, line ≠ []) ∨ lines.length ≤ b ∧ ∀ line ∈ lines.take (a - 1), line ≠ [] := by
  constructor
  · intro h
    by_cases hall : plainLines lines = lines
    · exact .inl (plainLines_eq_self_iff.mp hall)
    · refine .inr ⟨?_, (plain_of_kept hab (h ▸ keptLines_sublist _ _ _)).1⟩
      have hfewer : (plainLines lines).length < lines.length := by
        refine Nat.lt_of_le_of_ne (plainLines_sublist lines).length_le fun heq => hall ?_
        exact (plainLines_sublist lines).eq_of_length heq
      have hlength := congrArg List.length h
      simp only [keptLines_take_drop hab, List.length_append, List.length_take,
        List.length_drop] at hlength
      omega
  · rintro (hall | ⟨hend, hfront⟩)
    · rw [plainLines_eq_self_iff.mpr hall]
    · have hfewer := (plainLines_sublist lines).length_le
      rw [keptLines_take_drop hab, keptLines_take_drop hab, take_plainLines hfront,
        List.drop_of_length_le hend, List.drop_of_length_le (hfewer.trans hend)]

theorem converting (v : Int) : IntConversion fun n => if -2 ^ 31 ≤ n ∧ n < 2 ^ 31 then n else v :=
  fun _ hge hlt => if_pos ⟨hge, hlt⟩

-- The last number is read as any number at all, the first one too where it is outside int.
def KeptConverted (a b : Nat) (lines : List Bytes) : Prop :=
  ∀ v : Int, keptLines (if a < 2 ^ 31 then a else v) v (plainLines lines) = keptLines a b lines

theorem keptConverted (hb : 2 ^ 31 ≤ b) (h : ∀ convert, IntConversion convert →
    keptLines (convert a) (convert b) (plainLines lines) = keptLines a b lines) :
    KeptConverted a b lines := by
  intro v
  have hv := h _ (converting v)
  rw [if_neg (show ¬ (-2 ^ 31 ≤ (b : Int) ∧ (b : Int) < 2 ^ 31) by omega)] at hv
  by_cases ha' : a < 2 ^ 31
  · rw [if_pos (show -2 ^ 31 ≤ (a : Int) ∧ (a : Int) < 2 ^ 31 by omega)] at hv
    rw [if_pos ha']
    exact hv
  · rw [if_neg (show ¬ (-2 ^ 31 ≤ (a : Int) ∧ (a : Int) < 2 ^ 31) by omega)] at hv
    rw [if_neg ha']
    exact hv

theorem KeptConverted.none_deleted (h : KeptConverted a b lines) :
    plainLines lines = keptLines a b lines := by
  rw [← h 0, keptLines_eq_self]
  intro k hk _
  exact .inr (by omega)

theorem KeptConverted.front_plain (h : KeptConverted a b lines) (hab : a ≤ b) :
    ∀ line ∈ lines.take (a - 1), line ≠ [] := by
  have hsub : (keptLines a b lines).Sublist (plainLines lines) := by
    rw [← h.none_deleted]
  exact (plain_of_kept hab hsub).1

theorem KeptConverted.behind_blank (h : KeptConverted a b lines) (ha : 1 ≤ a) (hab : a ≤ b)
    (ha' : a < 2 ^ 31) : lines.length ≤ b ∧ ∀ line ∈ lines.drop (a - 1), line = [] := by
  have hnone := h.none_deleted
  have hlast := h (max a (plainLines lines).length : Nat)
  rw [if_pos ha', keptLines_take_drop (Nat.le_max_left _ _), ← hnone,
    List.drop_of_length_le (Nat.le_max_right _ _), List.append_nil] at hlast
  have hshort : (plainLines lines).length ≤ a - 1 := (List.take_eq_self_iff _).mp hlast
  rw [keptLines_take_drop hab] at hnone
  have hend : lines.length ≤ b := by
    have hlength := congrArg List.length hnone
    simp only [List.length_append, List.length_take, List.length_drop] at hlength
    omega
  refine ⟨hend, plainLines_eq_nil_iff.mp ?_⟩
  rw [List.drop_of_length_le hend, plainLines_split _ (h.front_plain hab)] at hnone
  exact List.append_cancel_left hnone

theorem KeptConverted.eq_nil (h : KeptConverted a b lines) (hab : a ≤ b) (ha : ¬ a < 2 ^ 31) :
    lines = [] := by
  have hnone := h.none_deleted
  have hfirst := h ((1 : Nat) : Int)
  rw [if_neg ha, keptLines_take_drop (Nat.le_refl 1), ← hnone] at hfirst
  have hempty : (plainLines lines).length = 0 := by
    have hlength := congrArg List.length hfirst
    simp only [List.length_append, List.length_take, List.length_drop] at hlength
    omega
  have hlength := congrArg List.length hnone
  rw [keptLines_take_drop hab] at hlength
  simp only [List.length_append, List.length_take, List.length_drop] at hlength
  exact List.length_eq_zero_iff.mp (by omega)

theorem kept_converted (ha : 1 ≤ a) (hab : a ≤ b) (h : KeptConverted a b lines) :
    lines = [] ∨ a < 2 ^ 31 ∧ lines.length ≤ b ∧ (∀ line ∈ lines.take (a - 1), line ≠ []) ∧
      ∀ line ∈ lines.drop (a - 1), line = [] := by
  by_cases ha' : a < 2 ^ 31
  · obtain ⟨hend, hblank⟩ := h.behind_blank ha hab ha'
    exact .inr ⟨ha', hend, h.front_plain hab, hblank⟩
  · exact .inl (h.eq_nil hab ha')

theorem kept_of_agree (ha : 1 ≤ a) (hab : a ≤ b) {convert : Int → Int}
    (hconvert : IntConversion convert) (h : NumbersAgree a b lines) :
    keptLines (convert a) (convert b) (plainLines lines) = keptLines a b lines := by
  unfold NumbersAgree at h
  split at h
  · next hb =>
    rw [hconvert a (by omega) (by omega), hconvert b (by omega) (by omega)]
    exact (kept_agrees_iff hab).mpr h
  · rcases h with rfl | ⟨ha', hend, hfront, hblank⟩
    · rfl
    · have hplain : plainLines lines = lines.take (a - 1) := by
        rw [plainLines_split _ hfront, plainLines_eq_nil_iff.mpr hblank, List.append_nil]
      rw [hconvert a (by omega) (by omega), hplain, keptLines_take_drop hab,
        List.drop_of_length_le hend, List.append_nil, keptLines_eq_self]
      intro k _ hk
      rw [List.length_take] at hk
      exact .inl (by omega)

theorem numbersAgree_iff (ha : 1 ≤ a) (hab : a ≤ b) :
    (∀ convert, IntConversion convert →
      keptLines (convert a) (convert b) (plainLines lines) = keptLines a b lines) ↔
      NumbersAgree a b lines := by
  constructor
  · intro h
    unfold NumbersAgree
    split
    · exact (kept_agrees_iff hab).mp (h id fun _ _ _ => rfl)
    · next hb => exact kept_converted ha hab (keptConverted (by omega) h)
  · exact fun h _ hconvert => kept_of_agree ha hab hconvert h

end Numbering

section Main

theorem lines_deleted_iff (text script : Bytes) (a b outputSize : Nat) (hzero : 0 ∉ text) (ha : 1 ≤ a)
    (hab : a ≤ b) (hscript : DeleteScript a b script) (hsize : text.length < outputSize) :
    DeletesLines text script a b outputSize ↔ NumbersAgree a b (linesOf newline text) ∧
      (plainLines (linesOf newline text)).length < 2147483647 := by
  rw [← words_eq_plainLines]
  constructor
  · intro h
    have hfew := few_of_deletes hzero hscript hsize h
    rw [deletesLines_iff_kept hzero hfew hscript hsize, words_eq_plainLines] at h
    exact ⟨(numbersAgree_iff ha hab).mp h, hfew⟩
  · rintro ⟨hagree, hfew⟩
    rw [deletesLines_iff_kept hzero hfew hscript hsize, words_eq_plainLines]
    exact (numbersAgree_iff ha hab).mpr hagree

theorem lines_deleted_without_blank : DeletesLines (str "a\nb\nc\n") (str "2d") 2 2 19 :=
  (lines_deleted_iff (str "a\nb\nc\n") (str "2d") 2 2 19 (by decide) (by decide) (by decide)
    (.inr ⟨rfl, rfl⟩) (by decide)).mpr
    ⟨by rw [NumbersAgree, if_pos (by decide)]; exact .inl (by decide), by decide⟩

theorem blank_line_not_numbered : ¬ DeletesLines (str "a\n\nb\n") (str "2d") 2 2 19 := by
  have hscript : DeleteScript 2 2 (str "2d") := .inr ⟨rfl, rfl⟩
  rw [deletesLines_iff_kept (by decide) (by decide) hscript (by decide), words_eq_plainLines]
  intro h
  have hkept : keptLines 2 2 (plainLines (linesOf newline (str "a\n\nb\n"))) =
      keptLines 2 2 (linesOf newline (str "a\n\nb\n")) := h id fun _ _ _ => rfl
  exact absurd hkept (by decide)

end Main

end ZoraVM.Unix
