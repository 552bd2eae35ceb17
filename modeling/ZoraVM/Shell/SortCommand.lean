import Mathlib.Data.List.Lex
import ZoraVM.Foundation.BubbleSort
import ZoraVM.Foundation.CInt
import ZoraVM.Foundation.Lines
import ZoraVM.Foundation.Memory
import ZoraVM.Network.VirtualNetwork
import ZoraVM.Shell.Redirection
import ZoraVM.Unix.GrepPartition

namespace ZoraVM.Shell

open Foundation Vfs Unix
open Network (atoi)

section Source

structure SortFlags where
  reverse : Bool
  numeric : Bool
  unique : Bool
  deriving DecidableEq, Repr

def sortUsage : List Bytes :=
  [str "Usage: sort [OPTIONS] <filename>\n", str "Options:\n",
    str "  -r, --reverse      reverse sort order\n", str "  -n, --numeric      sort numerically\n",
    str "  -u, --unique       remove duplicates\n", str "  -h, --help         show this help message\n"]

def sortHelp : List Bytes :=
  [str "sort - Sort lines in text files\n\n", str "Usage: sort [OPTIONS] <filename>\n\n",
    str "Options:\n", str "  -r, --reverse      Sort in reverse (descending) order\n",
    str "  -n, --numeric      Sort numerically instead of alphabetically\n",
    str "  -u, --unique       Remove duplicate lines from output\n",
    str "  -h, --help         Show this help message\n\n", str "Examples:\n",
    str "  sort file.txt              Sort file alphabetically\n",
    str "  sort -r file.txt           Sort file in reverse order\n",
    str "  sort -n numbers.txt        Sort file numerically\n",
    str "  sort -u file.txt           Sort and remove duplicates\n",
    str "  sort -rn file.txt          Sort numerically in reverse\n"]

def sortAsksHelp (args : List Bytes) : Bool :=
  args.any fun arg => arg == str "--help" || arg == str "-h"

-- The flags and the last argument that is none.
def sortArguments (parsed : SortFlags × Option Bytes) : List Bytes → SortFlags × Option Bytes
  | [] => parsed
  | arg :: args =>
    sortArguments
      (if arg = str "-r" ∨ arg = str "--reverse" then ({ parsed.1 with reverse := true }, parsed.2)
      else if arg = str "-n" ∨ arg = str "--numeric" then
        ({ parsed.1 with numeric := true }, parsed.2)
      else if arg = str "-u" ∨ arg = str "--unique" then ({ parsed.1 with unique := true }, parsed.2)
      else (parsed.1, some arg)) args

-- malloc and strncpy of a segment; as an int, line_len is negative from 2^31 on.
def copyLine (segment : Bytes) : Checked Bytes :=
  let lineLen := segment.length % 2 ^ 32
  if lineLen < 2147483647 then .ok ((segment.take lineLen).takeWhile (· ≠ 0))
  else if lineLen = 2147483647 then .error .intOverflow
  else if lineLen = 4294967295 then .error (.fault .bufferOverflow)
  -- No block is that large.
  else .error (.fault .wildPointer)

def splitLines : Bytes → Bytes → List Bytes → Checked (List Bytes)
  | [], segment, lines => do
    let line ← copyLine segment
    .ok (lines ++ [line])
  | c :: content, segment, lines =>
    if c = newline then do
      let line ← copyLine segment
      if 1000 ≤ lines.length + 1 then .ok (lines ++ [line])
      else splitLines content [] (lines ++ [line])
    else splitLines content (segment ++ [c]) lines

-- Only the sign of a comparison is used.
def strcmp : Bytes → Bytes → Int
  | [], [] => 0
  | [], _ :: _ => -1
  | _ :: _, [] => 1
  | c :: s, d :: t => if c < d then -1 else if d < c then 1 else strcmp s t

def asInt (n : Int) : Option Int := if InInt n then some n else none

def sortCompare (numeric : Bool) (line next : Bytes) : Option Int :=
  if numeric then asInt (atoi line - atoi next) else some (strcmp line next)

def sortSwaps (flags : SortFlags) (line next : Bytes) : Option Bool := do
  let compare ← sortCompare flags.numeric line next
  some ((flags.reverse && decide (compare < 0)) || (!flags.reverse && decide (0 < compare)))

-- strcmp(lines[i], lines[i-1]) == 0, for what lines[i-1] points to when there is one.
def repeatsLine (prev : Option (Option Bytes)) (line : Bytes) : Checked Bool :=
  match prev with
  | none => .ok false
  | some none => .error (.fault .freedBlock)
  | some (some before) => .ok (decide (strcmp line before = 0))

-- A line that is printed is released; one that is skipped is not.
def printLines (unique : Bool) (prev : Option (Option Bytes)) : List Bytes → Checked (List Bytes)
  | [] => .ok []
  | line :: lines => do
    if ← (if unique then repeatsLine prev line else .ok false) then
      printLines unique (some (some line)) lines
    else
      let rest ← printLines unique (some none) lines
      .ok ((line ++ [newline]) :: rest)

def sortText (flags : SortFlags) (content : Bytes) : Checked (List Bytes) := do
  let lines ← splitLines content [] []
  match bubbleSort (sortSwaps flags) lines with
  | none => .error .intOverflow
  | some lines => printLines flags.unique none lines

-- Everything it prints, one entry for each printf.
def sortCommand (s : VfsState) (argv : List Bytes) : Checked (List Bytes × VfsState) :=
  if argv.length < 2 then .ok (sortUsage, s)
  else if sortAsksHelp argv.tail then .ok (sortHelp, s)
  else
    match sortArguments (⟨false, false, false⟩, none) argv.tail with
    | (_, none) => .ok ([str "sort: no input file specified\n"], s)
    | (flags, some filename) => do
      let fullPath := buildFullPath 512 s.currentDirectory filename
      match ← Checked.of (vfsReadFile s fullPath) with
      | (some (some p, size), s) => do
        let content ← Checked.of (copyFrom s.blocks (some p) 0 size)
        let printed ← sortText flags content
        .ok (printed, s)
      | (_, s) =>
        .ok ([str "sort: " ++ (fullPath ++ str ": No such file or directory\n")], s)

end Source

section Splitting

variable {content segment line : Bytes} {lines : List Bytes}

theorem splitLines_eq (content segment : Bytes) (lines : List Bytes) (h : lines.length < 1000) :
    splitLines content segment lines = (lines ++ ·) <$>
      (((content.splitOn newline).modifyHead (segment ++ ·)).take (1000 - lines.length)).mapM
        copyLine := by
  induction content generalizing segment lines with
  | nil =>
    have hleft : 1000 - lines.length = (999 - lines.length) + 1 := by omega
    rw [hleft, List.splitOn_nil, List.modifyHead_cons, List.append_nil, List.take_succ_cons,
      List.take_nil]
    cases hcopy : copyLine segment <;> simp [splitLines, hcopy] <;> rfl
  | cons c content ih =>
    rw [splitLines, List.splitOn_cons_eq_if_modifyHead]
    by_cases hc : c = newline
    · subst hc
      have hleft : 1000 - lines.length = (999 - lines.length) + 1 := by omega
      rw [if_pos rfl, if_pos (by simp), List.modifyHead_cons, List.append_nil, hleft,
        List.take_succ_cons, List.mapM_cons]
      cases hcopy : copyLine segment with
      | error e => rfl
      | ok line =>
        by_cases hfull : 1000 ≤ lines.length + 1
        · have hnone : 999 - lines.length = 0 := by omega
          rw [hnone, List.take_zero]
          simp [hfull, bind, Except.bind]
          rfl
        · have hlen : (lines ++ [line]).length = lines.length + 1 := by simp
          have hcount : 1000 - (lines ++ [line]).length = 999 - lines.length := by omega
          have hrest := ih [] (lines ++ [line]) (by omega)
          rw [hcount, modifyHead_nil_append] at hrest
          simp only [bind, Except.bind, if_neg hfull, hrest]
          cases ((content.splitOn newline).take (999 - lines.length)).mapM copyLine <;>
            simp [Except.map, pure, Except.pure, Functor.map]
    · have hsep : ¬ (c == newline) = true := by simpa using hc
      rw [if_neg hc, if_neg hsep, ih (segment ++ [c]) lines h, modifyHead_concat]

theorem copyLine_ok (h : copyLine segment = .ok line) : 0 ∉ line ∧ line.length < 2147483647 := by
  rw [copyLine] at h
  split at h
  · rename_i hlt
    obtain rfl := Except.ok.inj h
    refine ⟨fun hzero => by simpa using List.mem_takeWhile_imp hzero, ?_⟩
    exact (List.takeWhile_prefix _).length_le.trans_lt ((List.length_take_le _ _).trans_lt hlt)
  · split at h
    · cases h
    · split at h <;> cases h

theorem copyLine_eq (hzero : 0 ∉ segment) (hlen : segment.length < 2147483647) :
    copyLine segment = .ok segment := by
  have hsame : segment.length % 2 ^ 32 = segment.length :=
    Nat.mod_eq_of_lt (hlen.trans (by decide))
  have hwhole : segment.takeWhile (· ≠ 0) = segment := by
    rw [List.takeWhile_eq_self_iff]
    exact fun c hc => by simpa using ne_of_mem_of_not_mem hc hzero
  rw [copyLine, hsame, if_pos hlen, List.take_length, hwhole]

theorem copyLines_eq (h : ∀ segment ∈ lines, 0 ∉ segment ∧ segment.length < 2147483647) :
    lines.mapM copyLine = .ok lines := by
  induction lines with
  | nil => rfl
  | cons segment lines ih =>
    obtain ⟨hzero, hlen⟩ := h segment List.mem_cons_self
    rw [List.mapM_cons, copyLine_eq hzero hlen, ih fun l hl => h l (List.mem_cons_of_mem _ hl)]
    rfl

theorem copyLines_ok {copies : List Bytes} (h : lines.mapM copyLine = .ok copies) :
    copies.length = lines.length ∧ ∀ line ∈ copies, 0 ∉ line ∧ line.length < 2147483647 := by
  induction lines generalizing copies with
  | nil =>
    obtain rfl := Except.ok.inj h
    exact ⟨rfl, nofun⟩
  | cons segment lines ih =>
    rw [List.mapM_cons] at h
    obtain ⟨line, hline, h⟩ := Outcome.bind_eq_ok.mp h
    obtain ⟨rest, hrest, h⟩ := Outcome.bind_eq_ok.mp h
    obtain rfl := Except.ok.inj h
    obtain ⟨hlen, hall⟩ := ih hrest
    exact ⟨by simp [hlen], List.forall_mem_cons.mpr ⟨copyLine_ok hline, hall⟩⟩

end Splitting

section Order

variable {flags : SortFlags} {lines sorted : List Bytes} {reverse : Bool} {κ : Type}

def inOrder [LinearOrder κ] (reverse : Bool) (a b : κ) : Prop := if reverse then b ≤ a else a ≤ b

def SubtractsInInt (n m : Int) : Prop := InInt (n - m)

instance (n m : Int) : Decidable (SubtractsInInt n m) :=
  inferInstanceAs (Decidable (InInt (n - m)))

def SortOrder (flags : SortFlags) (line next : Bytes) : Prop :=
  if flags.numeric then inOrder flags.reverse (atoi line) (atoi next)
  else inOrder flags.reverse (strcmp line next) 0

instance [LinearOrder κ] (reverse : Bool) : DecidableRel (@inOrder κ _ reverse) :=
  fun a b => inferInstanceAs (Decidable (if reverse then b ≤ a else a ≤ b))

instance [LinearOrder κ] (reverse : Bool) : Std.Total (@inOrder κ _ reverse) := by
  cases reverse
  · exact ⟨fun a b => le_total a b⟩
  · exact ⟨fun a b => le_total b a⟩

instance [LinearOrder κ] (reverse : Bool) : IsTrans κ (inOrder reverse) := by
  cases reverse
  · exact ⟨fun a b c hab hbc => le_trans hab hbc⟩
  · exact ⟨fun a b c hab hbc => le_trans hbc hab⟩

instance [LinearOrder κ] (reverse : Bool) : Std.Antisymm (@inOrder κ _ reverse) := by
  cases reverse
  · exact ⟨fun a b hab hba => le_antisymm hab hba⟩
  · exact ⟨fun a b hab hba => le_antisymm hba hab⟩

theorem strcmp_swap (s t : Bytes) : strcmp t s = -strcmp s t := by
  induction s generalizing t with
  | nil => cases t <;> rfl
  | cons c s ih =>
    cases t with
    | nil => rfl
    | cons d t =>
      rw [strcmp, strcmp, ih]
      by_cases hlt : c < d
      · rw [if_neg (UInt8.lt_asymm hlt), if_pos hlt, if_pos hlt]
        rfl
      · rw [if_neg hlt, if_neg hlt]
        split <;> rfl

def byteKey (line : Bytes) : List Nat := line.map UInt8.toNat

theorem strcmp_neg_iff (s t : Bytes) : strcmp s t < 0 ↔ byteKey s < byteKey t := by
  induction s generalizing t with
  | nil =>
    cases t with
    | nil => exact ⟨nofun, nofun⟩
    | cons d t => exact ⟨fun _ => .nil, fun _ => neg_one_lt_zero⟩
  | cons c s ih =>
    cases t with
    | nil => exact ⟨nofun, nofun⟩
    | cons d t =>
      have hlex : byteKey (c :: s) < byteKey (d :: t) ↔ c < d ∨ c = d ∧ byteKey s < byteKey t := by
        rw [UInt8.lt_iff_toNat_lt, ← UInt8.toNat_inj]
        exact List.cons_lex_cons_iff
      rw [hlex, ← ih, strcmp]
      by_cases hlt : c < d
      · simp [hlt]
      · by_cases hgt : d < c
        · simp [hlt, hgt, (UInt8.ne_of_lt hgt).symm]
        · have heq : c = d := UInt8.le_antisymm (UInt8.not_lt.mp hgt) (UInt8.not_lt.mp hlt)
          simp [heq]

theorem strcmp_le_zero_iff (s t : Bytes) : strcmp s t ≤ 0 ↔ byteKey s ≤ byteKey t := by
  rw [← not_lt (α := List Nat), ← strcmp_neg_iff, strcmp_swap s t]
  omega

theorem zero_le_strcmp_iff (s t : Bytes) : 0 ≤ strcmp s t ↔ byteKey t ≤ byteKey s := by
  rw [← strcmp_le_zero_iff, strcmp_swap s t]
  omega

theorem asInt_eq_some {n m : Int} : asInt n = some m ↔ InInt n ∧ m = n := by
  rw [asInt]
  split
  · rename_i h
    simp [h, eq_comm]
  · rename_i h
    simp [h]

theorem sortCompare_numeric {line next : Bytes} {n : Int} :
    sortCompare true line next = some n ↔
      SubtractsInInt (atoi line) (atoi next) ∧ n = atoi line - atoi next := asInt_eq_some

theorem strcmp_inOrder (reverse : Bool) (s t : Bytes) :
    inOrder reverse (strcmp s t) 0 ↔ inOrder reverse (byteKey s) (byteKey t) := by
  cases reverse
  · exact strcmp_le_zero_iff s t
  · exact zero_le_strcmp_iff s t

theorem difference_inOrder (reverse : Bool) (n m : Int) :
    inOrder reverse (n - m) 0 ↔ inOrder reverse n m := by
  cases reverse
  · exact sub_nonpos
  · exact sub_nonneg

theorem sortSwaps_eq_some {line next : Bytes} {c : Bool} : sortSwaps flags line next = some c ↔
    ∃ n, sortCompare flags.numeric line next = some n ∧
      (c = true ↔ ¬ inOrder flags.reverse n 0) := by
  simp only [sortSwaps, Option.bind_eq_bind, Option.bind_eq_some_iff, Option.some.injEq]
  refine exists_congr fun n => and_congr_right fun _ => ?_
  cases flags.reverse <;> cases c <;> simp [inOrder]

theorem compares_text (h : flags.numeric = false) :
    ComparesBy (sortSwaps flags) byteKey (inOrder flags.reverse) fun _ _ => True := by
  intro line next c
  simp only [sortSwaps_eq_some, h, ← strcmp_inOrder, sortCompare]
  simp

theorem compares_numeric (h : flags.numeric = true) :
    ComparesBy (sortSwaps flags) atoi (inOrder flags.reverse) SubtractsInInt := by
  intro line next c
  simp only [sortSwaps_eq_some, h, sortCompare_numeric, ← difference_inOrder flags.reverse (atoi line)]
  constructor
  · rintro ⟨n, ⟨hsafe, rfl⟩, hc⟩
    exact ⟨hsafe, hc⟩
  · rintro ⟨hsafe, hc⟩
    exact ⟨_, ⟨hsafe, rfl⟩, hc⟩

theorem bubbleSort_lines (h : bubbleSort (sortSwaps flags) lines = some sorted) :
    sorted.Perm lines ∧ sorted.Pairwise (SortOrder flags) := by
  cases hmode : flags.numeric with
  | false =>
    obtain ⟨hperm, hsorted⟩ := bubbleSort_sorts (compares_text hmode) h
    refine ⟨hperm, hsorted.imp fun {a b} hab => ?_⟩
    rw [SortOrder, if_neg (by simp [hmode]), strcmp_inOrder]
    exact hab
  | true =>
    obtain ⟨hperm, hsorted⟩ := bubbleSort_sorts (compares_numeric hmode) h
    refine ⟨hperm, hsorted.imp fun {a b} hab => ?_⟩
    rw [SortOrder, if_pos hmode]
    exact hab

theorem bubbleSort_defined_iff (flags : SortFlags) (lines : List Bytes) :
    (bubbleSort (sortSwaps flags) lines).isSome ↔ (flags.numeric = true →
      Comparable (inOrder flags.reverse) SubtractsInInt (lines.map atoi)) := by
  cases hmode : flags.numeric with
  | false =>
    rw [bubbleSort_isSome_iff (compares_text hmode)]
    exact ⟨fun _ => nofun, fun _ => comparable_of_safe fun _ _ _ _ => trivial⟩
  | true =>
    rw [bubbleSort_isSome_iff (compares_numeric hmode)]
    exact ⟨fun h _ => h, fun h => h rfl⟩

end Order

section Printing

variable {flags : SortFlags} {content : Bytes} {lines printed : List Bytes} {unique : Bool}

theorem printLines_all (prev : Option (Option Bytes)) (lines : List Bytes) :
    printLines false prev lines = .ok (lines.map (· ++ [newline])) := by
  induction lines generalizing prev with
  | nil => rfl
  | cons line lines ih =>
    simp only [printLines, Bool.false_eq_true, if_false, bind, Except.bind, ih]
    rfl

theorem printLines_ok_iff : printLines unique none lines = .ok printed ↔
    (unique = true → lines.length ≤ 1) ∧ printed = lines.map (· ++ [newline]) := by
  cases unique with
  | false => simp [printLines_all, eq_comm]
  | true =>
    match lines with
    | [] => exact ⟨fun h => ⟨fun _ => Nat.zero_le 1, (Except.ok.inj h).symm⟩, fun h => h.2 ▸ rfl⟩
    | [line] => exact ⟨fun h => ⟨fun _ => Nat.le_refl 1, (Except.ok.inj h).symm⟩, fun h => h.2 ▸ rfl⟩
    | line :: next :: lines => exact ⟨nofun, fun h => absurd (h.1 rfl) (by simp)⟩

theorem sortText_ok_iff : sortText flags content = .ok printed ↔
    ∃ lines sorted, ((content.splitOn newline).take 1000).mapM copyLine = .ok lines ∧
      bubbleSort (sortSwaps flags) lines = some sorted ∧
        (flags.unique = true → sorted.length ≤ 1) ∧ printed = sorted.map (· ++ [newline]) := by
  have hsplit := splitLines_eq content [] [] (by decide)
  rw [modifyHead_nil_append] at hsplit
  rw [sortText, hsplit, Outcome.bind_eq_ok]
  simp only [List.nil_append, id_map', List.length_nil, Nat.sub_zero]
  refine exists_congr fun lines => ?_
  cases bubbleSort (sortSwaps flags) lines with
  | none => simp
  | some sorted => simp [printLines_ok_iff]

theorem dedup_single {l : List Bytes} (h : unique = true → l.length ≤ 1) :
    (if unique then l.dedup else l) = l := by
  cases unique with
  | false => rfl
  | true =>
    match l, h rfl with
    | [], _ => rfl
    | [line], _ => rfl

end Printing

section Law

variable {s : VfsState} {argv : List Bytes} {flags : SortFlags} {filename text : Bytes}

def SortPrints (s : VfsState) (argv : List Bytes) (flags : SortFlags) (text : Bytes) : Prop :=
  ∃ (lines : List Bytes) (t : VfsState),
    sortCommand s argv = .ok (lines.map (· ++ [newline]), t) ∧
      lines.Perm (if flags.unique then (text.splitOn newline).dedup else text.splitOn newline) ∧
        lines.Pairwise (SortOrder flags)

structure FitsSort (flags : SortFlags) (segments : List Bytes) : Prop where
  few : segments.length ≤ 1000
  copied : ∀ segment ∈ segments, 0 ∉ segment ∧ segment.length < 2147483647
  single : flags.unique = true → segments.length = 1
  comparable : flags.numeric = true →
    Comparable (inOrder flags.reverse) SubtractsInInt (segments.map atoi)

theorem FitsSort.sorts (h : FitsSort flags (text.splitOn newline)) :
    ∃ lines : List Bytes, sortText flags text = .ok (lines.map (· ++ [newline])) ∧
      lines.Perm (text.splitOn newline) ∧ lines.Pairwise (SortOrder flags) := by
  have hdefined := (bubbleSort_defined_iff flags _).mpr h.comparable
  obtain ⟨sorted, hsort⟩ := Option.isSome_iff_exists.mp hdefined
  obtain ⟨hperm, hsorted⟩ := bubbleSort_lines hsort
  refine ⟨sorted, sortText_ok_iff.mpr ⟨_, sorted, ?_, hsort, fun hunique => ?_, rfl⟩, hperm, hsorted⟩
  · rw [List.take_of_length_le h.few]
    exact copyLines_eq h.copied
  · rw [hperm.length_eq, h.single hunique]

theorem FitsSort.of_sorted {lines : List Bytes}
    (hrun : sortText flags text = .ok (lines.map (· ++ [newline])))
    (hperm : lines.Perm
      (if flags.unique then (text.splitOn newline).dedup else text.splitOn newline)) :
    FitsSort flags (text.splitOn newline) := by
  obtain ⟨copies, sorted, hcopy, hsort, hunique, hprinted⟩ := sortText_ok_iff.mp hrun
  obtain rfl := List.map_injective_iff.mpr (List.append_left_injective [newline]) hprinted
  obtain ⟨hlen, hcopied⟩ := copyLines_ok hcopy
  obtain ⟨hsorted, -⟩ := bubbleSort_lines hsort
  have hcount : lines.length = min 1000 (text.splitOn newline).length := by
    rw [hsorted.length_eq, hlen, List.length_take]
  have hpos : 0 < (text.splitOn newline).length := List.length_pos_iff.mpr (List.splitOn_ne_nil _ _)
  have hsingle : flags.unique = true → (text.splitOn newline).length ≤ 1 := fun hu => by
    have hone := hunique hu
    omega
  rw [dedup_single hsingle] at hperm
  have hfew : (text.splitOn newline).length ≤ 1000 := by
    have heq := hperm.length_eq
    omega
  have hall : ∀ segment ∈ text.splitOn newline, 0 ∉ segment ∧ segment.length < 2147483647 :=
    fun segment hin => hcopied segment (hsorted.mem_iff.mp (hperm.mem_iff.mpr hin))
  rw [List.take_of_length_le hfew, copyLines_eq hall] at hcopy
  obtain rfl := Except.ok.inj hcopy
  refine ⟨hfew, hall, fun hu => Nat.le_antisymm (hsingle hu) hpos, ?_⟩
  exact (bubbleSort_defined_iff flags _).mp (Option.isSome_iff_exists.mpr ⟨lines, hsort⟩)

theorem sortCommand_eq (hreach : Reachable s) (hhelp : sortAsksHelp argv.tail = false)
    (hargs : sortArguments (⟨false, false, false⟩, none) argv.tail = (flags, some filename))
    (hread : readBytes s (buildFullPath 512 s.currentDirectory filename) = some text) :
    ∃ t, sortCommand s argv = (fun printed => (printed, t)) <$> sortText flags text := by
  obtain ⟨t, hshow⟩ := showFile_eq hreach hread
  have htail : argv.tail ≠ [] := fun hnil => by
    rw [hnil] at hargs
    cases (Prod.mk.inj hargs).2
  refine ⟨t, ?_⟩
  rw [sortCommand, if_neg (two_le_of_tail htail), hhelp, if_neg Bool.false_ne_true, hargs]
  exact hshow _ (sortText flags)

theorem sort_prints_iff (hreach : Reachable s) (hhelp : sortAsksHelp argv.tail = false)
    (hargs : sortArguments (⟨false, false, false⟩, none) argv.tail = (flags, some filename))
    (hread : readBytes s (buildFullPath 512 s.currentDirectory filename) = some text) :
    SortPrints s argv flags text ↔
      (text.splitOn newline).length ≤ 1000 ∧
        (∀ segment ∈ text.splitOn newline, 0 ∉ segment ∧ segment.length < 2147483647) ∧
        (flags.unique = true → (text.splitOn newline).length = 1) ∧
        (flags.numeric = true → Comparable (inOrder flags.reverse) SubtractsInInt
          ((text.splitOn newline).map atoi)) := by
  obtain ⟨t, hcommand⟩ := sortCommand_eq hreach hhelp hargs hread
  constructor
  · rintro ⟨lines, u, hrun, hperm, -⟩
    rw [hcommand] at hrun
    obtain ⟨printed, htext, hdone⟩ := Outcome.map_eq_ok.mp hrun
    obtain rfl := (Prod.mk.inj hdone).1
    have h := FitsSort.of_sorted htext hperm
    exact ⟨h.few, h.copied, h.single, h.comparable⟩
  · rintro ⟨hfew, hcopied, hsingle, hcomparable⟩
    obtain ⟨lines, htext, hperm, hsorted⟩ := FitsSort.sorts ⟨hfew, hcopied, hsingle, hcomparable⟩
    refine ⟨lines, t, by rw [hcommand, htext]; rfl, ?_, hsorted⟩
    rwa [dedup_single fun hu => (hsingle hu).le]

end Law

section Concrete

def numbers : Bytes := str "10\n9\n-3"

theorem reachable_numbers : Reachable (mountedText numbers) := by
  have hreach := reachableBy_ran (fun _ _ => true) (hostWithText numbers)
    [.mountPersistent (str "/m") (str "C:\\d")] (by decide +kernel) (by decide +kernel)
  exact ⟨_, hreach.mono fun _ _ _ => trivial⟩

theorem numbers_sorted : SortPrints (mountedText numbers) [str "sort", str "-n", str "/m/f"]
    ⟨false, true, false⟩ numbers := by
  have hargs : sortArguments (⟨false, false, false⟩, none)
      [str "sort", str "-n", str "/m/f"].tail = (⟨false, true, false⟩, some (str "/m/f")) := by
    decide
  refine (sort_prints_iff reachable_numbers (by decide) hargs (by decide +kernel)).mpr ?_
  exact ⟨by decide +kernel, by decide +kernel, nofun,
    fun _ => comparable_of_safe (by decide +kernel)⟩

theorem unique_reads_released_line : Reachable (mountedText numbers) ∧
    readBytes (mountedText numbers) (str "/m/f") = some numbers ∧
      (Prod.fst <$> sortCommand (mountedText numbers) [str "sort", str "-u", str "/m/f"] =
        .error (.fault .freedBlock)) ∧
        ¬ SortPrints (mountedText numbers) [str "sort", str "-u", str "/m/f"]
          ⟨false, false, true⟩ numbers := by
  have hfault : Prod.fst <$> sortCommand (mountedText numbers) [str "sort", str "-u", str "/m/f"] =
      .error (.fault .freedBlock) := by decide +kernel
  refine ⟨reachable_numbers, by decide +kernel, hfault, ?_⟩
  rintro ⟨lines, t, hrun, -⟩
  rw [hrun] at hfault
  cases hfault

end Concrete

end ZoraVM.Shell
