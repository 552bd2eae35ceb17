import ZoraVM.Foundation.CInt
import ZoraVM.Foundation.Lines
import ZoraVM.Foundation.Memory
import ZoraVM.Network.VirtualNetwork
import ZoraVM.Shell.FileCommands
import ZoraVM.Unix.GrepPartition
import ZoraVM.Vfs.BlockEnds

namespace ZoraVM.Shell

open Foundation Vfs Unix
open Network (atoi)

section Source

def seenBytes (content : Bytes) : Bytes :=
  content.take ((content.length : Int).bmod (2 ^ 32)).toNat

-- content[size - 1]
def closing (content : Bytes) : Bytes := if content.getLast? = some newline then [] else [newline]

def headLoop (lines : Int) : Int → Bytes → Bytes
  | _, [] => []
  | shown, c :: content =>
    if shown < lines then c :: headLoop lines (if c = newline then shown + 1 else shown) content
    else []

def headText (lines : Int) (content : Bytes) : Bytes :=
  headLoop lines 0 (seenBytes content) ++ closing content

-- start_pos keeps its 0 where the loop never comes to the target.
def startPos (target : Int) : Int → Nat → Bytes → Nat
  | _, _, [] => 0
  | current, i, c :: content =>
    if target ≤ current then i
    else startPos target (if c = newline then current + 1 else current) (i + 1) content

def tailTarget (lines total : Int) : Checked Int :=
  if lines < total then checkedInt (total - lines) else .ok 0

def tailText (lines : Int) (content : Bytes) : Checked Bytes := do
  let seen := seenBytes content
  let target ← tailTarget lines (seen.count newline)
  .ok (seen.drop (startPos target 0 0 seen) ++ closing content)

def grepShown (pattern line : Bytes) : Bytes :=
  let line := line.takeWhile (· ≠ 0)
  if occurs pattern line then line ++ [newline] else []

-- From the line number, which nothing prints, and the line so far.
def grepBytes (pattern : Bytes) : Int → Bytes → Bytes → Checked Bytes
  | _, _, [] => .ok []
  | lineNum, line, c :: rest =>
    if c = newline ∨ rest = [] then do
      let lineNum ← checkedInt (lineNum + 1)
      (grepShown pattern line ++ ·) <$> grepBytes pattern lineNum [] rest
    else grepBytes pattern lineNum (if line.length < 1023 then line ++ [c] else line) rest

def grepText (pattern content : Bytes) : Checked Bytes := grepBytes pattern 1 [] (seenBytes content)

-- The three commands from their arguments to the text; file_node is the node that is read.
def onFile (name empty : Bytes) (shown : Bytes → Checked Bytes) (s : VfsState) (filename : Bytes) :
    Checked (Bytes × VfsState) := do
  let path := fullPath s.currentDirectory filename
  match ← Checked.of (vfsFindNode s path) with
  | none => .ok (name ++ (str ": " ++ (path ++ str ": No such file or directory\n")), s)
  | some n =>
    let node ← Checked.of (nodeAt s n)
    if node.isDirectory then .ok (name ++ (str ": " ++ (path ++ str ": Is a directory\n")), s)
    else
      match ← Checked.of (vfsReadFile s path) with
      | (some (some p, size), s) =>
        if size = 0 then .ok (empty, s)
        else
          let content ← Checked.of (copyFrom s.blocks (some p) 0 size)
          let printed ← shown content
          .ok (printed, s)
      | (_, s) => .ok (empty, s)

-- [-n lines] <filename>
def lineArguments (argv : List Bytes) : Option (Int × Bytes) :=
  match argv with
  | [_, filename] => some (10, filename)
  | [_, option, lines, filename] => if option = str "-n" then some (atoi lines, filename) else none
  | _ => none

def headCommand (s : VfsState) (argv : List Bytes) : Checked (Bytes × VfsState) :=
  match lineArguments argv with
  | none => .ok (str "Usage: head [-n lines] <filename>\n", s)
  | some (lines, filename) =>
    onFile (str "head") (str "(empty file)\n") (fun content => .ok (headText lines content)) s filename

def tailCommand (s : VfsState) (argv : List Bytes) : Checked (Bytes × VfsState) :=
  match lineArguments argv with
  | none => .ok (str "Usage: tail [-n lines] <filename>\n", s)
  | some (lines, filename) =>
    onFile (str "tail") (str "(empty file)\n") (tailText lines) s filename

def grepCommand (s : VfsState) (argv : List Bytes) : Checked (Bytes × VfsState) :=
  match argv with
  | _ :: pattern :: filename :: _ =>
    onFile (str "grep") [] (grepText pattern) s filename
  | [_, _] => .ok (str "grep: no input source specified\n", s)
  | _ => .ok (str "Usage: grep <pattern> [filename]\n" ++
      str "If no filename provided, reads from standard input (pipeline)\n", s)

end Source

section Loops

variable {text line rest pattern : Bytes} {ls : List Bytes} {lines shown target current : Int}

theorem seenBytes_eq (h : text.length < 2 ^ 31) : seenBytes text = text := by
  have hint : ((text.length : Int)).bmod (2 ^ 32) = text.length :=
    Int.bmod_eq_of_le (by omega) (by omega)
  rw [seenBytes, hint, Int.toNat_natCast, List.take_length]

theorem headLoop_done (h : lines ≤ shown) (text : Bytes) : headLoop lines shown text = [] := by
  cases text with
  | nil => rfl
  | cons c text => exact if_neg (Int.not_lt.mpr h)

theorem headLoop_rest (hrest : newline ∉ rest) (h : shown < lines) :
    headLoop lines shown rest = rest := by
  induction rest with
  | nil => rfl
  | cons c rest ih =>
    have hc : c ≠ newline := (List.ne_of_not_mem_cons hrest).symm
    rw [headLoop, if_pos h, if_neg hc, ih (List.not_mem_of_not_mem_cons hrest)]

theorem headLoop_line (hline : newline ∉ line) (h : shown < lines) (text : Bytes) :
    headLoop lines shown (line ++ newline :: text) =
      line ++ newline :: headLoop lines (shown + 1) text := by
  induction line with
  | nil => rw [List.nil_append, headLoop, if_pos h, if_pos rfl, List.nil_append]
  | cons c line ih =>
    have hc : c ≠ newline := (List.ne_of_not_mem_cons hline).symm
    rw [List.cons_append, headLoop, if_pos h, if_neg hc, ih (List.not_mem_of_not_mem_cons hline),
      List.cons_append]

theorem endedLines_cons (line : Bytes) (ls : List Bytes) :
    endedLines newline (line :: ls) = line ++ newline :: endedLines newline ls := by
  simp [endedLines]

theorem headLoop_lines (hls : ∀ line ∈ ls, newline ∉ line) (hrest : newline ∉ rest) (shown : Int) :
    headLoop lines shown (endedLines newline ls ++ rest) =
      endedLines newline (ls.take (lines - shown).toNat) ++
        if ls.length < lines - shown then rest else [] := by
  induction ls generalizing shown with
  | nil =>
    by_cases h : shown < lines
    · have hleft : ((0 : Nat) : Int) < lines - shown := by omega
      rw [endedLines, List.flatMap_nil, List.nil_append, headLoop_rest hrest h, List.take_nil,
        List.length_nil, if_pos hleft]
      rfl
    · have hnone : ¬ ((0 : Nat) : Int) < lines - shown := by omega
      rw [endedLines, List.flatMap_nil, List.nil_append, headLoop_done (Int.not_lt.mp h), List.take_nil,
        List.length_nil, if_neg hnone]
      rfl
  | cons line ls ih =>
    by_cases h : shown < lines
    · have hnext : (lines - shown).toNat = (lines - (shown + 1)).toNat + 1 := by omega
      have hcount : ((line :: ls).length < lines - shown) ↔ (ls.length < lines - (shown + 1)) := by
        rw [List.length_cons]
        omega
      have hfirst := hls line List.mem_cons_self
      rw [endedLines_cons, List.append_assoc, List.cons_append, headLoop_line hfirst h,
        ih (fun l hl => hls l (List.mem_cons_of_mem line hl)), hnext, List.take_succ_cons,
        endedLines_cons, List.append_assoc, List.cons_append]
      simp only [hcount]
    · have hzero : (lines - shown).toNat = 0 := by omega
      have hnone : ¬ ((line :: ls).length : Int) < lines - shown := by omega
      rw [headLoop_done (Int.not_lt.mp h), hzero, List.take_zero, if_neg hnone]
      rfl

theorem startPos_here (h : target ≤ current) (hne : text ≠ []) (i : Nat) :
    startPos target current i text = i := by
  cases text with
  | nil => exact absurd rfl hne
  | cons c text => exact if_pos h

theorem startPos_rest (hrest : newline ∉ rest) (h : current < target) (i : Nat) :
    startPos target current i rest = 0 := by
  induction rest generalizing i with
  | nil => rfl
  | cons c rest ih =>
    have hc : c ≠ newline := (List.ne_of_not_mem_cons hrest).symm
    rw [startPos, if_neg (Int.not_le.mpr h), if_neg hc, ih (List.not_mem_of_not_mem_cons hrest)]

theorem startPos_line (hline : newline ∉ line) (h : current < target) (i : Nat) (text : Bytes) :
    startPos target current i (line ++ newline :: text) =
      startPos target (current + 1) (i + (line.length + 1)) text := by
  induction line generalizing i with
  | nil =>
    rw [List.nil_append, startPos, if_neg (Int.not_le.mpr h), if_pos rfl, List.length_nil]
  | cons c line ih =>
    have hc : c ≠ newline := (List.ne_of_not_mem_cons hline).symm
    have hnext : i + 1 + (line.length + 1) = i + ((c :: line).length + 1) := by
      rw [List.length_cons]
      omega
    rw [List.cons_append, startPos, if_neg (Int.not_le.mpr h), if_neg hc,
      ih (List.not_mem_of_not_mem_cons hline), hnext]

theorem startPos_lines (hls : ∀ line ∈ ls, newline ∉ line) (hrest : newline ∉ rest) (current : Int)
    (i : Nat) : startPos target current i (endedLines newline ls ++ rest) =
      if target - current ≤ ls.length ∧
          endedLines newline (ls.drop (target - current).toNat) ++ rest ≠ [] then
        i + (endedLines newline (ls.take (target - current).toNat)).length
      else 0 := by
  induction ls generalizing current i with
  | nil =>
    rw [List.drop_nil, List.take_nil, List.length_nil]
    by_cases h : target ≤ current
    · have hzero : target - current ≤ ((0 : Nat) : Int) := by omega
      by_cases hnil : rest = []
      · subst hnil
        rw [if_neg fun hboth => hboth.2 rfl]
        rfl
      · have hne : endedLines newline [] ++ rest ≠ [] := by simpa [endedLines] using hnil
        rw [startPos_here h hne, if_pos ⟨hzero, hne⟩]
        rfl
    · have hnot : ¬ target - current ≤ ((0 : Nat) : Int) := by omega
      rw [if_neg fun hboth => hnot hboth.1]
      exact startPos_rest (by simpa [endedLines] using hrest) (Int.not_le.mp h) i
  | cons line ls ih =>
    by_cases h : target ≤ current
    · have hzero : (target - current).toNat = 0 := by omega
      have hfew : target - current ≤ ((line :: ls).length : Int) := by omega
      have hne : endedLines newline (line :: ls) ++ rest ≠ [] := by
        rw [endedLines_cons]
        simp
      rw [startPos_here h hne, hzero, List.drop_zero, if_pos ⟨hfew, hne⟩]
      rfl
    · have hnext : (target - current).toNat = (target - (current + 1)).toNat + 1 := by omega
      have hfew : target - current ≤ ((ls.length + 1 : Nat) : Int) ↔
          target - (current + 1) ≤ (ls.length : Int) := by omega
      rw [endedLines_cons, List.append_assoc, List.cons_append,
        startPos_line (hls line List.mem_cons_self) (Int.not_le.mp h),
        ih (fun l hl => hls l (List.mem_cons_of_mem line hl)), hnext, List.drop_succ_cons,
        List.take_succ_cons, endedLines_cons]
      simp only [List.length_append, List.length_cons, hfew, Nat.add_assoc, Nat.add_comm 1]

theorem grepBytes_printed {printed : Bytes} {lineNum : Int} (hline : line.length ≤ 1023)
    (hne : text ≠ []) (h : grepBytes pattern lineNum line text = .ok printed) :
    printed = (((text.dropLast.splitOn newline).modifyHead (line ++ ·)).map (List.take 1023)).flatMap
      (grepShown pattern) := by
  induction text generalizing lineNum line printed with
  | nil => exact absurd rfl hne
  | cons c text ih =>
    have hwhole : line.take 1023 = line := List.take_of_length_le hline
    rw [grepBytes] at h
    by_cases hlast : text = []
    · subst hlast
      rw [if_pos (.inr rfl)] at h
      obtain ⟨next, -, hrest⟩ := Outcome.bind_eq_ok.mp h
      obtain rfl := Except.ok.inj hrest
      rw [List.dropLast_singleton, List.splitOn_nil]
      simp [hwhole]
    · rw [List.dropLast_cons_of_ne_nil hlast, List.splitOn_cons_eq_if_modifyHead]
      by_cases hc : c = newline
      · rw [if_pos (.inl hc)] at h
        obtain ⟨next, -, hmap⟩ := Outcome.bind_eq_ok.mp h
        obtain ⟨behind, hrun, rfl⟩ := Outcome.map_eq_ok.mp hmap
        have hrest := ih (Nat.zero_le _) hlast hrun
        rw [modifyHead_nil_append] at hrest
        rw [if_pos (by simpa using hc), List.modifyHead_cons, List.append_nil, List.map_cons, hwhole,
          List.flatMap_cons, hrest]
      · have hgoes : ¬ (c = newline ∨ text = []) := fun h => h.elim hc hlast
        have hroom : (if line.length < 1023 then line ++ [c] else line).length ≤ 1023 := by
          split
          · rw [List.length_append, List.length_singleton]
            omega
          · exact hline
        have hcut : ∀ segment : Bytes,
            ((if line.length < 1023 then line ++ [c] else line) ++ segment).take 1023 =
              (line ++ c :: segment).take 1023 := by
          intro segment
          split
          · rw [List.append_assoc, List.singleton_append]
          · have hfull : line.length = 1023 := by omega
            rw [← hfull, List.take_left, List.take_left]
        have hsep : ¬ (c == newline) = true := by simpa using hc
        rw [if_neg hgoes] at h
        rw [if_neg hsep, ih hroom hlast h]
        cases text.dropLast.splitOn newline with
        | nil => rfl
        | cons segment segments =>
          simp only [List.modifyHead_cons, List.map_cons, hcut]

theorem grepBytes_ends {lineNum : Int} (hpos : 0 ≤ lineNum)
    (hroom : lineNum + text.length ≤ 2147483647) :
    ∃ printed, grepBytes pattern lineNum line text = .ok printed := by
  induction text generalizing lineNum line with
  | nil => exact ⟨[], rfl⟩
  | cons c text ih =>
    rw [List.length_cons] at hroom
    rw [grepBytes]
    split
    · have hnext : checkedInt (lineNum + 1) = .ok (lineNum + 1) := if_pos ⟨by omega, by omega⟩
      obtain ⟨behind, hrun⟩ := @ih [] (lineNum + 1) (by omega) (by omega)
      exact ⟨_, Outcome.bind_eq_ok.mpr ⟨_, hnext, Outcome.map_eq_ok.mpr ⟨behind, hrun, rfl⟩⟩⟩
    · exact ih hpos (by omega)

theorem grepText_eq (hne : text ≠ []) (hsize : text.length < 2147483647) (pattern : Bytes) :
    grepText pattern text =
      .ok (((text.dropLast.splitOn newline).map (List.take 1023)).flatMap (grepShown pattern)) := by
  rw [grepText, seenBytes_eq (by omega)]
  obtain ⟨printed, hrun⟩ := @grepBytes_ends text [] pattern 1 (by decide) (by omega)
  rw [hrun, grepBytes_printed (Nat.zero_le _) hne hrun, modifyHead_nil_append]

end Loops

section Laws

variable {text rest pattern : Bytes} {ls : List Bytes} {lines : Int}

theorem lines_and_rest (text : Bytes) : ∃ ls rest, text = endedLines newline ls ++ rest ∧
    (∀ line ∈ ls, newline ∉ line) ∧ newline ∉ rest := by
  induction text with
  | nil => exact ⟨[], [], rfl, fun _ h => absurd h List.not_mem_nil, List.not_mem_nil⟩
  | cons c text ih =>
    obtain ⟨ls, rest, rfl, hls, hrest⟩ := ih
    by_cases hc : c = newline
    · refine ⟨[] :: ls, rest, ?_, List.forall_mem_cons.mpr ⟨List.not_mem_nil, hls⟩, hrest⟩
      rw [hc, endedLines_cons]
      rfl
    · have hne : newline ≠ c := Ne.symm hc
      cases ls with
      | nil => exact ⟨[], c :: rest, rfl, hls, List.not_mem_cons_of_ne_of_not_mem hne hrest⟩
      | cons line ls =>
        obtain ⟨hline, hls⟩ := List.forall_mem_cons.mp hls
        refine ⟨(c :: line) :: ls, rest, ?_, List.forall_mem_cons.mpr
          ⟨List.not_mem_cons_of_ne_of_not_mem hne hline, hls⟩, hrest⟩
        rw [endedLines_cons, endedLines_cons]
        rfl

theorem getLast?_ended (hne : ls ≠ []) : (endedLines newline ls).getLast? = some newline := by
  rw [← intercalate_append_sep hne, List.getLast?_concat]

theorem closing_eq (hrest : newline ∉ rest) (hne : endedLines newline ls ++ rest ≠ []) :
    closing (endedLines newline ls ++ rest) = if rest = [] then [] else [newline] := by
  by_cases h : rest = []
  · subst h
    have hls : ls ≠ [] := by
      rintro rfl
      exact hne rfl
    rw [closing, List.append_nil, getLast?_ended hls, if_pos rfl, if_pos rfl]
  · have hlast : (endedLines newline ls ++ rest).getLast? ≠ some newline := by
      rw [List.getLast?_append_of_ne_nil _ h]
      exact fun heq => hrest (List.mem_of_getLast? heq)
    rw [closing, if_neg hlast, if_neg h]

theorem count_ended (hls : ∀ line ∈ ls, newline ∉ line) (hrest : newline ∉ rest) :
    (endedLines newline ls ++ rest).count newline = ls.length := by
  induction ls with
  | nil => exact List.count_eq_zero_of_not_mem hrest
  | cons line ls ih =>
    have hline := List.count_eq_zero_of_not_mem (hls line List.mem_cons_self)
    rw [endedLines_cons, List.append_assoc, List.cons_append, List.count_append, List.count_cons_self,
      hline, ih fun l hl => hls l (List.mem_cons_of_mem line hl), List.length_cons]
    omega

theorem headText_eq (hls : ∀ line ∈ ls, newline ∉ line) (hrest : newline ∉ rest)
    (htext : text = endedLines newline ls ++ rest) (hne : text ≠ []) (hsize : text.length < 2 ^ 31)
    (lines : Int) : headText lines text = endedLines newline (ls.take lines.toNat) ++
      ((if ls.length < lines then rest else []) ++ if rest = [] then [] else [newline]) := by
  have hloop : headLoop lines 0 (endedLines newline ls ++ rest) =
      endedLines newline (ls.take (lines - 0).toNat) ++
        if ls.length < lines - 0 then rest else [] := headLoop_lines hls hrest 0
  rw [Int.sub_zero] at hloop
  rw [headText, seenBytes_eq hsize, htext, hloop, closing_eq hrest (htext ▸ hne), List.append_assoc]

def tailSkips (lines : Int) (ended : Nat) (rest : Bytes) : Nat :=
  if lines < 0 ∨ lines = 0 ∧ rest = [] then 0 else ended - lines.toNat

theorem drop_ended (n : Nat) (ls : List Bytes) (rest : Bytes) :
    (endedLines newline ls ++ rest).drop (endedLines newline (ls.take n)).length =
      endedLines newline (ls.drop n) ++ rest := by
  have hsplit : endedLines newline ls =
      endedLines newline (ls.take n) ++ endedLines newline (ls.drop n) := by
    rw [endedLines, endedLines, endedLines, ← List.flatMap_append, List.take_append_drop]
  rw [hsplit, List.append_assoc, List.drop_left]

theorem startPos_target (hls : ∀ line ∈ ls, newline ∉ line) (hrest : newline ∉ rest)
    (hne : endedLines newline ls ++ rest ≠ []) :
    (endedLines newline ls ++ rest).drop
        (startPos (if lines < ls.length then ls.length - lines else 0) 0 0
          (endedLines newline ls ++ rest)) =
      endedLines newline (ls.drop (tailSkips lines ls.length rest)) ++ rest := by
  rw [startPos_lines hls hrest, Int.sub_zero, Nat.zero_add]
  by_cases hmore : lines < ls.length
  · rw [if_pos hmore]
    by_cases hneg : lines < 0
    · have hfar : ¬ (ls.length : Int) - lines ≤ ls.length := by omega
      rw [if_neg fun h => hfar h.1, tailSkips, if_pos (.inl hneg)]
      rfl
    · have hnear : (ls.length : Int) - lines ≤ ls.length := by omega
      have hcount : ((ls.length : Int) - lines).toNat = ls.length - lines.toNat := by omega
      by_cases hnone : lines = 0 ∧ rest = []
      · obtain ⟨rfl, rfl⟩ := hnone
        rw [if_neg fun h => h.2 (by simp [endedLines]), tailSkips, if_pos (.inr ⟨rfl, rfl⟩)]
        rfl
      · have hleft : endedLines newline (ls.drop ((ls.length : Int) - lines).toNat) ++ rest ≠ [] := by
          intro hnil
          obtain ⟨hended, hempty⟩ := List.append_eq_nil_iff.mp hnil
          have hdropped : ls.drop ((ls.length : Int) - lines).toNat = [] := by
            cases hdrop : ls.drop ((ls.length : Int) - lines).toNat with
            | nil => rfl
            | cons line behind =>
              rw [hdrop, endedLines_cons] at hended
              simp at hended
          have hlen := List.drop_eq_nil_iff.mp hdropped
          exact hnone ⟨by omega, hempty⟩
        have hnot : ¬ (lines < 0 ∨ lines = 0 ∧ rest = []) := fun h => h.elim hneg hnone
        rw [if_pos ⟨hnear, hleft⟩, hcount, drop_ended, tailSkips, if_neg hnot]
  · have hfew : ls.length - lines.toNat = 0 := by omega
    have hzero : (0 : Int) ≤ ls.length := by omega
    rw [if_neg hmore, if_pos ⟨hzero, by simpa using hne⟩]
    simp [tailSkips, hfew, endedLines]

theorem tailText_eq (hls : ∀ line ∈ ls, newline ∉ line) (hrest : newline ∉ rest)
    (htext : text = endedLines newline ls ++ rest) (hne : text ≠ []) (hsize : text.length < 2 ^ 31)
    (lines : Int) : tailText lines text =
      if ls.length - lines ≤ 2147483647 then
        .ok (endedLines newline (ls.drop (tailSkips lines ls.length rest)) ++
          (rest ++ if rest = [] then [] else [newline]))
      else .error .intOverflow := by
  have hshort : ls.length ≤ text.length := by
    rw [← count_ended hls hrest, ← htext]
    exact List.count_le_length
  have hplaced : (endedLines newline ls ++ rest).drop
      (startPos (if lines < ls.length then ls.length - lines else 0) 0 0
        (endedLines newline ls ++ rest)) =
      endedLines newline (ls.drop (tailSkips lines ls.length rest)) ++ rest :=
    startPos_target hls hrest (htext ▸ hne)
  have hclosed := closing_eq hrest (htext ▸ hne)
  rw [tailText, seenBytes_eq hsize]
  have hcount : text.count newline = ls.length := by rw [htext, count_ended hls hrest]
  by_cases hbound : (ls.length : Int) - lines ≤ 2147483647
  · have htarget : tailTarget lines ls.length =
        .ok (if lines < ls.length then ls.length - lines else 0) := by
      rw [tailTarget]
      split
      · exact if_pos ⟨by omega, hbound⟩
      · rfl
    rw [if_pos hbound, hcount, htarget]
    simp only [bind, Except.bind]
    rw [htext, hplaced, hclosed, List.append_assoc]
  · have htarget : tailTarget lines ls.length = .error .intOverflow := by
      rw [tailTarget, if_pos (by omega)]
      exact if_neg fun h => hbound h.2
    rw [if_neg hbound, hcount, htarget]
    rfl

end Laws

section Commands

variable {s t : VfsState} {filename text : Bytes} {n m : Bytes}

theorem onFile_eq (hreach : Reachable s)
    (hread : readBytes s (fullPath s.currentDirectory filename) = some text) :
    ∃ t, ∀ name empty shown, onFile name empty shown s filename =
      if text = [] then .ok (empty, t) else (fun printed => (printed, t)) <$> shown text := by
  obtain ⟨p, t, hcall, hcopy⟩ := hreach.wellEnded.read_copied hread
  refine ⟨t, fun name empty shown => ?_⟩
  rcases vfsReadFile_cases hcall with ⟨hnone, -⟩ | ⟨node, a, hfind, ha, hfile, -, -⟩
  · cases hnone
  · have hnode := nodeAt_of_valAt ha
    rw [onFile]
    simp only [hfind, hnode, hfile, hcall, hcopy, Checked.of, Except.mapError, bind, Except.bind,
      Bool.false_eq_true, if_false, List.length_eq_zero_iff]
    split <;> rfl

theorem head_eq (hreach : Reachable s)
    (hread : readBytes s (fullPath s.currentDirectory filename) = some text) (hne : text ≠ [])
    (n : Bytes) :
    ∃ t, headCommand s [str "head", str "-n", n, filename] = .ok (headText (atoi n) text, t) := by
  obtain ⟨t, hall⟩ := onFile_eq hreach hread
  refine ⟨t, ?_⟩
  rw [headCommand, lineArguments, if_pos rfl]
  simp only [hall, if_neg hne]
  rfl

theorem tail_eq (hreach : Reachable s)
    (hread : readBytes s (fullPath s.currentDirectory filename) = some text) (hne : text ≠ [])
    (n : Bytes) :
    ∃ t, tailCommand s [str "tail", str "-n", n, filename] =
      (fun printed => (printed, t)) <$> tailText (atoi n) text := by
  obtain ⟨t, hall⟩ := onFile_eq hreach hread
  refine ⟨t, ?_⟩
  rw [tailCommand, lineArguments, if_pos rfl]
  simp only [hall, if_neg hne]

def SplitsFile (s t : VfsState) (n m filename text : Bytes) : Prop :=
  ∃ front back s' t', headCommand s [str "head", str "-n", n, filename] = .ok (front, s') ∧
    tailCommand t [str "tail", str "-n", m, filename] = .ok (back, t') ∧ front ++ back = text

theorem head_tail_split_iff (hs : Reachable s) (ht : Reachable t)
    (hfront : readBytes s (fullPath s.currentDirectory filename) = some text)
    (hback : readBytes t (fullPath t.currentDirectory filename) = some text) (hne : text ≠ [])
    (hsize : text.length < 2 ^ 31) (hn : 0 ≤ atoi n) (hm : 0 ≤ atoi m)
    (hsum : atoi n + atoi m = text.count newline) :
    SplitsFile s t n m filename text ↔ text.getLast? = some newline ∧ 0 < atoi m := by
  obtain ⟨ls, rest, htext, hls, hrest⟩ := lines_and_rest text
  obtain ⟨s', hhead⟩ := head_eq hs hfront hne n
  obtain ⟨t', htail⟩ := tail_eq ht hback hne m
  have hcount : text.count newline = ls.length := by rw [htext, count_ended hls hrest]
  rw [hcount] at hsum
  have hbound : (ls.length : Int) - atoi m ≤ 2147483647 := by
    have hshort : ls.length ≤ text.length := hcount ▸ List.count_le_length
    omega
  have hfew : ¬ (ls.length : Int) < atoi n := by omega
  rw [headText_eq hls hrest htext hne hsize, if_neg hfew] at hhead
  rw [tailText_eq hls hrest htext hne hsize, if_pos hbound] at htail
  have hsplits : SplitsFile s t n m filename text ↔
      endedLines newline (ls.take (atoi n).toNat) ++ ([] ++ if rest = [] then [] else [newline]) ++
        (endedLines newline (ls.drop (tailSkips (atoi m) ls.length rest)) ++
          (rest ++ if rest = [] then [] else [newline])) = text := by
    constructor
    · rintro ⟨front, back, _, _, hf, hb, happend⟩
      rw [hhead] at hf
      rw [htail] at hb
      obtain ⟨rfl, -⟩ := Prod.mk.inj (Except.ok.inj hf)
      obtain ⟨rfl, -⟩ := Prod.mk.inj (Except.ok.inj hb)
      exact happend
    · exact fun happend => ⟨_, _, s', t', hhead, htail, happend⟩
  have hhalves : ∀ k, endedLines newline (ls.take k) ++ endedLines newline (ls.drop k) =
      endedLines newline ls := by
    intro k
    rw [endedLines, endedLines, ← List.flatMap_append, List.take_append_drop, ← endedLines]
  rw [hsplits]
  by_cases hended : rest = []
  · subst hended
    have hnonempty : ls ≠ [] := by
      rintro rfl
      exact hne htext
    have hlast : text.getLast? = some newline := by rw [htext, List.append_nil, getLast?_ended hnonempty]
    simp only [if_pos, List.append_nil] at htext ⊢
    by_cases hzero : 0 < atoi m
    · have hnot : ¬ (atoi m < 0 ∨ atoi m = 0 ∧ ([] : Bytes) = []) := by omega
      have hsame : ls.length - (atoi m).toNat = (atoi n).toNat := by omega
      rw [tailSkips, if_neg hnot, hsame, hhalves]
      exact iff_of_true htext.symm ⟨hlast, hzero⟩
    · have hnone : atoi m = 0 := by omega
      have hall : (atoi n).toNat = ls.length := by omega
      rw [tailSkips, if_pos (.inr ⟨hnone, rfl⟩), hall, List.take_length, List.drop_zero, ← htext]
      refine iff_of_false (fun h => hne ?_) fun h => hzero h.2
      simpa using h
  · have hnot : ¬ (atoi m < 0 ∨ atoi m = 0 ∧ rest = []) := fun h =>
      h.elim (fun hlt => by omega) fun h => hended h.2
    have hsame : ls.length - (atoi m).toNat = (atoi n).toNat := by omega
    have hlast : text.getLast? ≠ some newline := by
      rw [htext, List.getLast?_append_of_ne_nil _ hended]
      exact fun heq => hrest (List.mem_of_getLast? heq)
    -- Both commands close the text with a line feed of their own.
    refine iff_of_false (fun h => ?_) fun h => hlast h.1
    have hlen := congrArg List.length h
    have htwo := congrArg List.length (hhalves (atoi n).toNat)
    rw [tailSkips, if_neg hnot, hsame, htext] at hlen
    simp only [if_neg hended, List.length_append, List.length_cons, List.length_nil] at hlen htwo
    omega

end Commands

section Chains

inductive TextTool where
  | head (lines : Bytes)
  | tail (lines : Bytes)
  | grep (pattern : Bytes)
  deriving DecidableEq, Repr

def TextTool.run (s : VfsState) (filename : Bytes) : TextTool → Checked (Bytes × VfsState)
  | .head lines => headCommand s [str "head", str "-n", lines, filename]
  | .tail lines => tailCommand s [str "tail", str "-n", lines, filename]
  | .grep pattern => grepCommand s [str "grep", pattern, filename]

def emptyFile : Bytes := str "(empty file)"

def TextTool.onLines (ls : List Bytes) : TextTool → List Bytes
  | .head lines => if ls = [] then [emptyFile] else ls.take (atoi lines).toNat
  | .tail lines =>
    if ls = [] then [emptyFile] else ls.drop (tailSkips (atoi lines) ls.length [])
  | .grep pattern => ls.filter (occurs pattern)

structure PlainLine (line : Bytes) : Prop where
  oneLine : newline ∉ line
  noZero : 0 ∉ line
  fits : line.length ≤ 1023

inductive Chain : List TextTool → Bytes → Bytes → Prop
  | nil (text : Bytes) : Chain [] text text
  | cons {s t : VfsState} {tool : TextTool} {tools : List TextTool} {filename text printed out : Bytes} :
    Reachable s → readBytes s (fullPath s.currentDirectory filename) = some text →
      tool.run s filename = .ok (printed, t) → Chain tools printed out → Chain (tool :: tools) text out

variable {s t : VfsState} {filename text printed out pattern : Bytes} {ls : List Bytes}
variable {tool : TextTool} {tools : List TextTool}

theorem plain_emptyFile : PlainLine emptyFile := ⟨by decide, by decide, by decide⟩

theorem ended_emptyFile : str "(empty file)\n" = endedLines newline [emptyFile] := by decide

theorem ended_eq_nil : endedLines newline ls = [] ↔ ls = [] := by
  cases ls with
  | nil => simp [endedLines]
  | cons line ls => simp [endedLines_cons]

theorem onLines_plain (h : ∀ line ∈ ls, PlainLine line) (tool : TextTool) :
    ∀ line ∈ tool.onLines ls, PlainLine line := by
  intro line hline
  cases tool with
  | head lines =>
    rw [TextTool.onLines] at hline
    split at hline
    · exact List.mem_singleton.mp hline ▸ plain_emptyFile
    · exact h line (List.mem_of_mem_take hline)
  | tail lines =>
    rw [TextTool.onLines] at hline
    split at hline
    · exact List.mem_singleton.mp hline ▸ plain_emptyFile
    · exact h line (List.mem_of_mem_drop hline)
  | grep pattern => exact h line (List.mem_of_mem_filter hline)

theorem length_onLines (h : (endedLines newline ls).length < 2 ^ 31) (tool : TextTool) :
    (endedLines newline (tool.onLines ls)).length < 2 ^ 31 := by
  have hempty : (endedLines newline [emptyFile]).length < 2 ^ 31 := by decide
  have hpart : ∀ some, List.Sublist some ls → (endedLines newline some).length < 2 ^ 31 :=
      fun some hsub =>
    (length_endedLines_sublist newline hsub).trans_lt h
  cases tool with
  | head lines =>
    rw [TextTool.onLines]
    split
    · exact hempty
    · exact hpart _ (List.take_sublist _ _)
  | tail lines =>
    rw [TextTool.onLines]
    split
    · exact hempty
    · exact hpart _ (List.drop_sublist _ _)
  | grep pattern => exact hpart _ List.filter_sublist

theorem grepShown_plain {line : Bytes} (h : PlainLine line) (pattern : Bytes) :
    grepShown pattern (line.take 1023) = if occurs pattern line then line ++ [newline] else [] := by
  have hwhole : line.takeWhile (· ≠ 0) = line := by
    rw [List.takeWhile_eq_self_iff]
    exact fun c hc => by simpa using ne_of_mem_of_not_mem hc h.noZero
  rw [List.take_of_length_le h.fits, grepShown]
  simp only [hwhole]

theorem grepShown_lines (hplain : ∀ line ∈ ls, PlainLine line) (hne : ls ≠ []) (pattern : Bytes) :
    (((endedLines newline ls).dropLast.splitOn newline).map (List.take 1023)).flatMap
      (grepShown pattern) = endedLines newline (ls.filter (occurs pattern)) := by
  have hsegments : (endedLines newline ls).dropLast.splitOn newline = ls := by
    rw [← intercalate_append_sep hne, List.dropLast_concat]
    exact List.splitOn_intercalate newline (fun line hline => (hplain line hline).oneLine) hne
  have hfilter : ∀ some : List Bytes, (∀ line ∈ some, PlainLine line) →
      (some.map (List.take 1023)).flatMap (grepShown pattern) =
        endedLines newline (some.filter (occurs pattern)) := by
    intro some hsome
    induction some with
    | nil => rfl
    | cons line some ih =>
      have hrest := ih fun l hl => hsome l (List.mem_cons_of_mem line hl)
      rw [List.map_cons, List.flatMap_cons, grepShown_plain (hsome line List.mem_cons_self), hrest,
        List.filter_cons]
      by_cases hfound : occurs pattern line = true
      · rw [if_pos hfound, if_pos hfound, endedLines_cons, List.append_assoc]
        rfl
      · rw [if_neg hfound, if_neg hfound, List.nil_append]
  rw [hsegments, hfilter ls hplain]

theorem run_on_lines (hreach : Reachable s)
    (hread : readBytes s (fullPath s.currentDirectory filename) = some (endedLines newline ls))
    (hplain : ∀ line ∈ ls, PlainLine line) (hsize : (endedLines newline ls).length < 2 ^ 31)
    (hrun : tool.run s filename = .ok (printed, t)) :
    printed = endedLines newline (tool.onLines ls) := by
  obtain ⟨u, hall⟩ := onFile_eq hreach hread
  have hls : ∀ line ∈ ls, newline ∉ line := fun line hline => (hplain line hline).oneLine
  have htext : endedLines newline ls = endedLines newline ls ++ [] := (List.append_nil _).symm
  by_cases hnil : ls = []
  · subst hnil
    have hempty : endedLines newline [] = [] := rfl
    cases tool with
    | head lines =>
      rw [TextTool.run, headCommand, lineArguments, if_pos rfl] at hrun
      simp only [hall, hempty, if_true] at hrun
      rw [← (Prod.mk.inj (Except.ok.inj hrun)).1]
      exact ended_emptyFile
    | tail lines =>
      rw [TextTool.run, tailCommand, lineArguments, if_pos rfl] at hrun
      simp only [hall, hempty, if_true] at hrun
      rw [← (Prod.mk.inj (Except.ok.inj hrun)).1]
      exact ended_emptyFile
    | grep pattern =>
      rw [TextTool.run, grepCommand] at hrun
      simp only [hall, hempty, if_true] at hrun
      exact (Prod.mk.inj (Except.ok.inj hrun)).1.symm
  · have hne : endedLines newline ls ≠ [] := fun h => hnil (ended_eq_nil.mp h)
    cases tool with
    | head lines =>
      obtain ⟨t', hhead⟩ := head_eq hreach hread hne lines
      rw [TextTool.run, hhead, headText_eq hls List.not_mem_nil htext hne hsize] at hrun
      rw [← (Prod.mk.inj (Except.ok.inj hrun)).1, TextTool.onLines, if_neg hnil]
      simp
    | tail lines =>
      obtain ⟨t', htail⟩ := tail_eq hreach hread hne lines
      rw [TextTool.run, htail, tailText_eq hls List.not_mem_nil htext hne hsize] at hrun
      split at hrun
      · rw [← (Prod.mk.inj (Except.ok.inj hrun)).1, TextTool.onLines, if_neg hnil]
        simp
      · cases hrun
    | grep pattern =>
      rw [TextTool.run, grepCommand] at hrun
      simp only [hall, if_neg hne] at hrun
      obtain ⟨found, hgrep, hdone⟩ := Outcome.map_eq_ok.mp hrun
      rw [grepText, seenBytes_eq hsize] at hgrep
      rw [← (Prod.mk.inj hdone).1, grepBytes_printed (Nat.zero_le _) hne hgrep, modifyHead_nil_append,
        grepShown_lines hplain hnil pattern]
      rfl

theorem chain_on_lines (hchain : Chain tools (endedLines newline ls) out)
    (hplain : ∀ line ∈ ls, PlainLine line) (hsize : (endedLines newline ls).length < 2 ^ 31) :
    out = endedLines newline (tools.foldl TextTool.onLines ls) := by
  induction tools generalizing ls with
  | nil =>
    cases hchain
    rfl
  | cons tool tools ih =>
    cases hchain with
    | cons hreach hread hrun hrest =>
      obtain rfl := run_on_lines hreach hread hplain hsize hrun
      exact ih hrest (onLines_plain hplain tool) (length_onLines hsize tool)

end Chains

section Greps

variable {s : VfsState} {filename text line rest : Bytes} {ls segments : List Bytes}

def GrepsLines (s : VfsState) (filename text : Bytes) : Prop :=
  ∀ pattern, ∃ t, grepCommand s [str "grep", pattern, filename] =
    .ok (endedLines newline ((linesOf newline text).filter (occurs pattern)), t)

def grepCut (line : Bytes) : Bytes := (line.take 1023).takeWhile (· ≠ 0)

theorem grepCut_eq_iff : grepCut line = line ↔ 0 ∉ line ∧ line.length ≤ 1023 := by
  constructor
  · intro h
    refine ⟨fun hzero => ?_, ?_⟩
    · rw [← h] at hzero
      simpa using List.mem_takeWhile_imp hzero
    · have hlen := congrArg List.length h
      have hcut := (List.takeWhile_prefix (· ≠ 0) (l := line.take 1023)).length_le
      rw [grepCut] at hlen
      rw [List.length_take] at hcut
      omega
  · rintro ⟨hzero, hfits⟩
    rw [grepCut, List.take_of_length_le hfits, List.takeWhile_eq_self_iff]
    exact fun c hc => by simpa using ne_of_mem_of_not_mem hc hzero

theorem occurs_nil (text : Bytes) : occurs [] text = true := by
  cases text <;> simp [occurs]

theorem greps_everything (segments : List Bytes) :
    (segments.map (List.take 1023)).flatMap (grepShown []) =
      endedLines newline (segments.map grepCut) := by
  induction segments with
  | nil => rfl
  | cons segment segments ih =>
    rw [List.map_cons, List.flatMap_cons, ih, List.map_cons, endedLines_cons, grepShown]
    simp only [occurs_nil, if_true, List.append_assoc, List.singleton_append]
    rfl

theorem segments_eq (hls : ∀ line ∈ ls, newline ∉ line) (hrest : newline ∉ rest)
    (hne : endedLines newline ls ++ rest ≠ []) :
    (endedLines newline ls ++ rest).dropLast.splitOn newline =
      if rest = [] then ls else ls ++ [rest.dropLast] := by
  by_cases h : rest = []
  · subst h
    have hlines : ls ≠ [] := by
      rintro rfl
      exact hne rfl
    rw [List.append_nil, ← intercalate_append_sep hlines, List.dropLast_concat, if_pos rfl]
    exact List.splitOn_intercalate newline hls hlines
  · have hlast : newline ∉ rest.dropLast := fun hin => hrest (List.mem_of_mem_dropLast hin)
    have hjoined : (endedLines newline ls ++ rest).dropLast =
        [newline].intercalate (ls ++ [rest.dropLast]) := by
      rw [List.dropLast_append_of_ne_nil h]
      by_cases hnil : ls = []
      · simp [hnil, endedLines]
      · rw [intercalate_concat hnil, ← intercalate_append_sep hnil, List.append_assoc]
        rfl
    rw [hjoined, if_neg h]
    refine List.splitOn_intercalate newline (fun line hline => ?_) (by simp)
    rcases List.mem_append.mp hline with hin | hin
    · exact hls line hin
    · exact List.mem_singleton.mp hin ▸ hlast

theorem linesOf_parts (hls : ∀ line ∈ ls, newline ∉ line) (hrest : newline ∉ rest) :
    linesOf newline (endedLines newline ls ++ rest) = if rest = [] then ls else ls ++ [rest] := by
  induction ls with
  | nil =>
    by_cases h : rest = []
    · simp [h, endedLines]
    · rw [if_neg h, endedLines, List.flatMap_nil, List.nil_append, linesOf_line hrest h]
      rfl
  | cons line ls ih =>
    have hlater := ih fun l hl => hls l (List.mem_cons_of_mem line hl)
    rw [endedLines_cons, List.append_assoc, List.cons_append,
      linesOf_append_sep (hls line List.mem_cons_self), hlater]
    split <;> rfl

theorem endedLines_inj {some others : List Bytes} (hsome : ∀ line ∈ some, newline ∉ line)
    (hothers : ∀ line ∈ others, newline ∉ line)
    (h : endedLines newline some = endedLines newline others) : some = others := by
  rw [← linesOf_endedLines hsome, h, linesOf_endedLines hothers]

theorem newline_not_mem_cut (h : newline ∉ line) : newline ∉ grepCut line := fun hin =>
  h (List.mem_of_mem_take ((List.takeWhile_prefix _).subset hin))

theorem grep_lines_iff (hreach : Reachable s)
    (hread : readBytes s (fullPath s.currentDirectory filename) = some text) (hne : text ≠ [])
    (hsize : text.length < 2147483647) : GrepsLines s filename text ↔
      text.getLast? = some newline ∧
        ∀ line ∈ linesOf newline text, 0 ∉ line ∧ line.length ≤ 1023 := by
  obtain ⟨ls, rest, rfl, hls, hrest⟩ := lines_and_rest text
  obtain ⟨t, hall⟩ := onFile_eq hreach hread
  have hgrep : ∀ pattern, grepCommand s [str "grep", pattern, filename] =
      .ok ((((endedLines newline ls ++ rest).dropLast.splitOn newline).map (List.take 1023)).flatMap
        (grepShown pattern), t) := by
    intro pattern
    rw [grepCommand, hall, if_neg hne, grepText_eq hne hsize]
    rfl
  rw [linesOf_parts hls hrest]
  constructor
  · intro h
    obtain ⟨u, hprints⟩ := h []
    have hkept : ∀ lines : List Bytes, lines.filter (occurs []) = lines := fun lines =>
      List.filter_eq_self.mpr fun line _ => occurs_nil line
    rw [hgrep, hkept, linesOf_parts hls hrest] at hprints
    have hprinted := (Prod.mk.inj (Except.ok.inj hprints)).1
    rw [segments_eq hls hrest hne, greps_everything] at hprinted
    by_cases hended : rest = []
    · rw [if_pos hended, if_pos hended] at hprinted
      have hcuts : ∀ line ∈ ls.map grepCut, newline ∉ line := by
        intro line hline
        obtain ⟨whole, hwhole, rfl⟩ := List.mem_map.mp hline
        exact newline_not_mem_cut (hls whole hwhole)
      have hsame := endedLines_inj hcuts hls hprinted
      have hlines : ls ≠ [] := by
        rintro rfl
        exact hne (by rw [hended]; rfl)
      rw [hended, List.append_nil, getLast?_ended hlines, if_pos rfl]
      refine ⟨rfl, fun line hline => grepCut_eq_iff.mp ?_⟩
      have hfixed : ls.map grepCut = ls.map id := by rw [hsame, List.map_id]
      exact List.map_inj_left.mp hfixed line hline
    · rw [if_neg hended, if_neg hended] at hprinted
      have hcuts : ∀ line ∈ (ls ++ [rest.dropLast]).map grepCut, newline ∉ line := by
        intro line hline
        obtain ⟨whole, hwhole, rfl⟩ := List.mem_map.mp hline
        refine newline_not_mem_cut ?_
        rcases List.mem_append.mp hwhole with hin | hin
        · exact hls whole hin
        · rw [List.mem_singleton.mp hin]
          exact fun hlast => hrest (List.mem_of_mem_dropLast hlast)
      have hwholes : ∀ line ∈ ls ++ [rest], newline ∉ line := by
        intro line hline
        rcases List.mem_append.mp hline with hin | hin
        · exact hls line hin
        · exact List.mem_singleton.mp hin ▸ hrest
      have hsame := endedLines_inj hcuts hwholes hprinted
      rw [List.map_append, List.map_singleton] at hsame
      have hlast : grepCut rest.dropLast = rest :=
        List.singleton_inj.mp (List.append_inj' hsame (by simp)).2
      have hlen := congrArg List.length hlast
      have hcut := (List.takeWhile_prefix (· ≠ 0) (l := rest.dropLast.take 1023)).length_le
      have hpos := List.length_pos_iff.mpr hended
      rw [grepCut] at hlen
      rw [List.length_take, List.length_dropLast] at hcut
      omega
  · rintro ⟨hlast, hlines⟩ pattern
    have hended : rest = [] := by
      by_contra h
      rw [List.getLast?_append_of_ne_nil _ h] at hlast
      exact hrest (List.mem_of_getLast? hlast)
    subst hended
    rw [if_pos rfl] at hlines
    rw [List.append_nil] at hne
    have hnonempty : ls ≠ [] := fun hnil => hne (ended_eq_nil.mpr hnil)
    have hplain : ∀ line ∈ ls, PlainLine line := fun line hline =>
      ⟨hls line hline, (hlines line hline).1, (hlines line hline).2⟩
    rw [hgrep, linesOf_parts hls hrest, if_pos rfl, List.append_nil,
      grepShown_lines hplain hnonempty pattern]
    exact ⟨t, rfl⟩

end Greps

section Concrete

theorem fruits_grepped : GrepsLines (mountedText fruits) (str "/m/f") fruits := by
  refine (grep_lines_iff reachable_fruits (by decide +kernel) (by decide) (by decide)).mpr ?_
  exact ⟨by decide, by decide⟩

theorem fruits_split : SplitsFile (mountedText fruits) (mountedText fruits) (str "1") (str "1")
    (str "/m/f") fruits := by
  have hread : readBytes (mountedText fruits)
      (fullPath (mountedText fruits).currentDirectory (str "/m/f")) = some fruits := by decide +kernel
  exact (head_tail_split_iff reachable_fruits reachable_fruits hread hread (by decide) (by decide)
    (by decide) (by decide) (by decide)).mpr ⟨by decide, by decide⟩

theorem reachable_kiwi : Reachable (mountedText (str "kiwi\n")) := by
  have hreach := reachableBy_ran (fun _ _ => true) (hostWithText (str "kiwi\n"))
    [.mountPersistent (str "/m") (str "C:\\d")] (by decide +kernel) (by decide +kernel)
  exact ⟨_, hreach.mono fun _ _ _ => trivial⟩

def kiwiTools : List TextTool := [.grep (str "iwi"), .head (str "1")]

theorem kiwi_chain : Chain kiwiTools (endedLines newline [str "apple", str "kiwi"]) (str "kiwi\n") := by
  have hgrep : ∃ t, (TextTool.grep (str "iwi")).run (mountedText fruits) (str "/m/f") =
      .ok (str "kiwi\n", t) := by
    have hprinted : Prod.fst <$> (TextTool.grep (str "iwi")).run (mountedText fruits) (str "/m/f") =
        .ok (str "kiwi\n") := by decide +kernel
    obtain ⟨⟨_, t⟩, hrun, rfl⟩ := Outcome.map_eq_ok.mp hprinted
    exact ⟨t, hrun⟩
  have hhead : ∃ t, (TextTool.head (str "1")).run (mountedText (str "kiwi\n")) (str "/m/f") =
      .ok (str "kiwi\n", t) := by
    have hprinted :
        Prod.fst <$> (TextTool.head (str "1")).run (mountedText (str "kiwi\n")) (str "/m/f") =
        .ok (str "kiwi\n") := by decide +kernel
    obtain ⟨⟨_, t⟩, hrun, rfl⟩ := Outcome.map_eq_ok.mp hprinted
    exact ⟨t, hrun⟩
  obtain ⟨_, hgrep⟩ := hgrep
  obtain ⟨_, hhead⟩ := hhead
  exact .cons reachable_fruits (by decide +kernel) hgrep
    (.cons reachable_kiwi (by decide +kernel) hhead (.nil _))

theorem kiwi_on_lines : str "kiwi\n" =
    endedLines newline (kiwiTools.foldl TextTool.onLines [str "apple", str "kiwi"]) := by
  refine chain_on_lines kiwi_chain ?_ (by decide)
  intro line hline
  rcases List.mem_cons.mp hline with rfl | hline
  · exact ⟨by decide, by decide, by decide⟩
  · exact List.mem_singleton.mp hline ▸ ⟨by decide, by decide, by decide⟩

end Concrete

end ZoraVM.Shell
