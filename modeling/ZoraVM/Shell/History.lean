import ZoraVM.Foundation.Ownership
import ZoraVM.Foundation.Shifts
import ZoraVM.Network.Numerals
import ZoraVM.Shell.CommandLine

namespace ZoraVM.Shell

open Foundation Unix
open Network (decimalText padded)

section Source

-- command_history, history_count and the strings that malloc gave.
structure CommandHistory where
  cells : List (Option Nat)
  count : Nat
  strings : Heap Bytes

namespace CommandHistory

def empty : CommandHistory := ⟨List.replicate 100 none, 0, Heap.empty⟩

def freeString (strings : Heap Bytes) : Option Nat → Outcome (Heap Bytes)
  | none => .ok strings
  | some p => freeCell strings p

def addToHistory (h : CommandHistory) (command : Bytes) : Outcome CommandHistory :=
  if h.count < 100 then do
    let cells ← store h.cells h.count (some h.strings.size)
    .ok ⟨cells, h.count + 1, h.strings.alloc (command ++ [0])⟩
  else do
    let strings ← freeString h.strings (← load h.cells 0)
    let cells ← shiftDown 0 99 h.cells
    let cells ← store cells 99 (some strings.size)
    .ok ⟨cells, h.count, strings.alloc (command ++ [0])⟩

-- "%s" of an entry.
def stringAt (strings : Heap Bytes) : Option Nat → Outcome Bytes
  | none => .error .wildPointer
  | some p =>
    match strings.get p with
    | none => .error .freedBlock
    | some block => if 0 ∈ block then .ok (block.takeWhile (· ≠ 0)) else .error .bufferOverflow

-- "%4d  %s\n"
def historyLine (number : Nat) (command : Bytes) : Bytes :=
  padded 4 (decimalText number) ++ (str "  " ++ (command ++ [newline]))

def printFrom (h : CommandHistory) : Nat → Nat → Outcome Bytes
  | 0, _ => .ok []
  | left + 1, i => do
    let command ← stringAt h.strings (← load h.cells i)
    let behind ← printFrom h left (i + 1)
    .ok (historyLine (i + 1) command ++ behind)

def historyCommand (h : CommandHistory) : Outcome Bytes := do
  let entries ← if h.count = 0 then .ok (str "No commands in history\n") else printFrom h h.count 0
  .ok (str "Command history:\n" ++ entries)

end CommandHistory

end Source

section Refinement

open CommandHistory

variable {h : CommandHistory} {list cs : List Bytes} {command : Bytes} {ps : List Nat}

-- Each cell up to the count owns the string of one command, and nothing else is allocated.
structure ShowsHistory (h : CommandHistory) (ps : List Nat) (list : List Bytes) : Prop where
  count : h.count = ps.length
  cells : ∃ unused, h.cells = ps.map some ++ unused ∧ ps.length + unused.length = 100
  owns : Owns h.strings ps
  strings : List.Forall₂ (fun p command => h.strings.get p = some (command ++ [0])) ps list

theorem shows_empty : ShowsHistory CommandHistory.empty [] [] :=
  ⟨rfl, ⟨_, rfl, rfl⟩, Owns.nothing, .nil⟩

theorem strings_alloc {strings : Heap Bytes} (hs : List.Forall₂ (fun p command =>
    strings.get p = some (command ++ [0])) ps list) (command : Bytes) :
    List.Forall₂ (fun p command' => (strings.alloc (command ++ [0])).get p = some (command' ++ [0]))
      (ps ++ [strings.size]) (list ++ [command]) := by
  have hold := hs.imp fun _ _ hget => Heap.get_alloc_of_get (a := command ++ [0]) hget
  exact List.rel_append hold (.cons (Heap.get_alloc_self _ _) .nil)

theorem ShowsHistory.add (hshows : ShowsHistory h ps list) (command : Bytes) :
    ∃ h' ps', h.addToHistory command = .ok h' ∧
      ShowsHistory h' ps' (Shell.addToHistory command list) := by
  obtain ⟨unused, hcells, hroom⟩ := hshows.cells
  have hlen := hshows.strings.length_eq
  by_cases hfew : h.count < 100
  · have hfewer : list.length < 100 := by rw [← hlen, ← hshows.count]; exact hfew
    have hcount := hshows.count
    obtain ⟨x, rest, rfl⟩ := List.exists_cons_of_length_pos (by omega : 0 < unused.length)
    have hstore : store h.cells h.count (some h.strings.size) =
        .ok (ps.map some ++ some h.strings.size :: rest) := by
      have hmiddle := store_middle (ps.map some) rest x (some h.strings.size)
      rwa [List.length_map, ← hshows.count, ← hcells] at hmiddle
    refine ⟨⟨ps.map some ++ some h.strings.size :: rest, h.count + 1,
      h.strings.alloc (command ++ [0])⟩, ps ++ [h.strings.size], ?_, ?_⟩
    · rw [CommandHistory.addToHistory, if_pos hfew, hstore]
      rfl
    · rw [Shell.addToHistory, if_pos hfewer]
      refine ⟨by simp [hshows.count], ⟨rest, by simp, ?_⟩, hshows.owns.alloc _,
        strings_alloc hshows.strings command⟩
      rw [List.length_append, List.length_singleton]
      rw [List.length_cons] at hroom
      omega
  · have hcount := hshows.count
    have hfull : ¬ list.length < 100 := by omega
    have hnone : unused = [] := List.length_eq_zero_iff.mp (by omega)
    subst hnone
    rw [List.append_nil] at hcells
    cases hshows.strings with
    | nil => simp at hroom
    | @cons p first ps list hfirst hrest =>
      have hmoved : ps.length = 99 := by
        simp only [List.length_cons, List.length_nil] at hroom
        omega
      have howns : Owns h.strings ([] ++ p :: ps) := hshows.owns
      have hload : load h.cells 0 = .ok (some p) := by
        rw [hcells]
        rfl
      have hfree : freeString h.strings (some p) = .ok (h.strings.free p) :=
        howns.freeCell_eq List.mem_cons_self
      obtain ⟨last, hshift⟩ := shiftDown_moved [] (ps.map some) [] (some p)
      have hstore := store_middle (ps.map some) [] last (some (h.strings.free p).size)
      rw [List.length_map, hmoved] at hstore
      have hcells' : h.cells = [] ++ some p :: ps.map some ++ [] := by simpa using hcells
      rw [List.length_map, hmoved, List.length_nil, ← hcells', List.nil_append] at hshift
      refine ⟨⟨ps.map some ++ [some (h.strings.free p).size], h.count,
        (h.strings.free p).alloc (command ++ [0])⟩, ps ++ [(h.strings.free p).size], ?_, ?_⟩
      · rw [CommandHistory.addToHistory, if_neg hfew]
        simp only [hload, hfree, hshift, hstore, bind, Except.bind]
      · rw [Shell.addToHistory, if_neg hfull, List.tail_cons]
        have hkept : List.Forall₂ (fun q command => (h.strings.free p).get q = some (command ++ [0]))
            ps list := by
          have hother : ∀ q ∈ ps, q ≠ p := fun q hq heq =>
            (List.nodup_cons.mp howns.nodup).1 (heq ▸ hq)
          refine ((List.forall₂_and_left ps list).mpr ⟨hother, hrest⟩).imp fun q command hboth => ?_
          rw [Heap.get_free_of_ne hboth.1, hboth.2]
        refine ⟨?_, ⟨[], by simp, by simp [hmoved]⟩, howns.free.alloc _, strings_alloc hkept command⟩
        rw [hcount]
        simp

theorem ShowsHistory.run (hshows : ShowsHistory h ps list) (cs : List Bytes) :
    ∃ h' ps', cs.foldlM CommandHistory.addToHistory h = .ok h' ∧
      ShowsHistory h' ps' (cs.foldl (fun list c => Shell.addToHistory c list) list) := by
  induction cs generalizing h ps list with
  | nil => exact ⟨h, ps, rfl, hshows⟩
  | cons command cs ih =>
    obtain ⟨next, ps', hadd, hnext⟩ := hshows.add command
    obtain ⟨h', ps'', hrun, hshown⟩ := ih hnext
    refine ⟨h', ps'', ?_, hshown⟩
    rw [List.foldlM_cons, hadd]
    exact hrun

theorem history_last (cs : List Bytes) :
    cs.foldl (fun list c => Shell.addToHistory c list) [] = cs.drop (cs.length - 100) := by
  induction cs using List.reverseRecOn with
  | nil => rfl
  | append_singleton cs command ih =>
    rw [List.foldl_append, List.foldl_cons, List.foldl_nil, ih, Shell.addToHistory, List.length_drop,
      List.length_append, List.length_singleton]
    by_cases hfew : cs.length < 100
    · have hnone : cs.length - 100 = 0 := by omega
      have hnone' : cs.length + 1 - 100 = 0 := by omega
      rw [if_pos (by omega), hnone, hnone', List.drop_zero, List.drop_zero]
    · have hnext : cs.length + 1 - 100 = cs.length - 100 + 1 := by omega
      rw [if_neg (by omega), List.tail_drop, hnext, List.drop_append_of_le_length (by omega)]

end Refinement

section Listing

open CommandHistory

variable {h : CommandHistory} {list cs : List Bytes} {command : Bytes} {ps : List Nat}

def numbered : Nat → List Bytes → Bytes
  | _, [] => []
  | k, command :: list => historyLine k command ++ numbered (k + 1) list

def listing (list : List Bytes) : Bytes :=
  str "Command history:\n" ++
    if list = [] then str "No commands in history\n" else numbered 1 list

theorem stringAt_eq {strings : Heap Bytes} {p : Nat} (hget : strings.get p = some (command ++ [0]))
    (hplain : 0 ∉ command) : stringAt strings (some p) = .ok command := by
  have hcut : (command ++ [0]).takeWhile (· ≠ 0) = command := by
    rw [List.takeWhile_append_of_pos fun c hc => by simpa using ne_of_mem_of_not_mem hc hplain]
    simp
  rw [stringAt, hget]
  simp only [hcut]
  exact if_pos (by simp)

theorem ShowsHistory.printFrom (hshows : ShowsHistory h ps list) (hplain : ∀ c ∈ list, 0 ∉ c)
    (left i : Nat) (hleft : i + left = list.length) :
    h.printFrom left i = .ok (numbered (i + 1) (list.drop i)) := by
  induction left generalizing i with
  | zero =>
    rw [List.drop_of_length_le (by omega)]
    rfl
  | succ left ih =>
    have hi : i < list.length := by omega
    have hips : i < ps.length := hshows.strings.length_eq ▸ hi
    obtain ⟨unused, hcells, -⟩ := hshows.cells
    have hload : load h.cells i = .ok (some ps[i]) := by
      rw [load, hcells, List.getElem?_append_left (by simpa using hips), List.getElem?_map,
        List.getElem?_eq_getElem hips]
      rfl
    have hstring := stringAt_eq (hshows.strings.get hips hi) (hplain _ (List.getElem_mem hi))
    rw [CommandHistory.printFrom, hload, List.drop_eq_getElem_cons hi]
    simp only [bind, Except.bind, List.get_eq_getElem] at hstring ⊢
    rw [hstring, ih (i + 1) (by omega)]
    rfl

theorem ShowsHistory.listed (hshows : ShowsHistory h ps list) (hplain : ∀ c ∈ list, 0 ∉ c) :
    h.historyCommand = .ok (listing list) := by
  have hcount : h.count = list.length := by rw [hshows.count, hshows.strings.length_eq]
  rw [historyCommand, listing, hcount]
  by_cases hnil : list = []
  · subst hnil
    rfl
  · have hpos : list.length ≠ 0 := by simpa using hnil
    rw [if_neg hpos, hshows.printFrom hplain list.length 0 (by omega), if_neg hnil]
    rfl

theorem history_lists_last (cs : List Bytes) (hplain : ∀ c ∈ cs, 0 ∉ c) :
    ∃ h ps, cs.foldlM CommandHistory.addToHistory CommandHistory.empty = .ok h ∧
      h.historyCommand = .ok (listing (cs.drop (cs.length - 100))) ∧ h.count = ps.length ∧
      (∃ unused, h.cells = ps.map some ++ unused ∧ ps.length + unused.length = 100) ∧
      Owns h.strings ps ∧ ps.length = min cs.length 100 := by
  obtain ⟨h, ps, hrun, hshows⟩ := shows_empty.run cs
  rw [history_last] at hshows
  refine ⟨h, ps, hrun, hshows.listed fun c hc => hplain c (List.mem_of_mem_drop hc), hshows.count,
    hshows.cells, hshows.owns, ?_⟩
  rw [hshows.strings.length_eq, List.length_drop]
  omega

theorem history_lists_two : ∃ h ps,
    [str "ls", str "pwd"].foldlM CommandHistory.addToHistory CommandHistory.empty = .ok h ∧
      h.historyCommand = .ok (listing [str "ls", str "pwd"]) ∧ h.count = ps.length ∧
      (∃ unused, h.cells = ps.map some ++ unused ∧ ps.length + unused.length = 100) ∧
      Owns h.strings ps ∧ ps.length = 2 :=
  history_lists_last [str "ls", str "pwd"] (by decide)

end Listing

end ZoraVM.Shell
