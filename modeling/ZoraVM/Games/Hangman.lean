import ZoraVM.Foundation.CString
import ZoraVM.Foundation.Shifts
import ZoraVM.Foundation.TextMode

namespace ZoraVM.Games

open Foundation

section Source

def maxGuesses : Nat := 6
def maxWordLength : Nat := 32

def wordList : List Bytes :=
  ["COMPUTER", "PROGRAMMING", "UNIX", "ZORA", "VIRTUAL", "MACHINE",
    "KERNEL", "SHELL", "TERMINAL", "DEBUGGING", "COMPILER", "ASSEMBLY",
    "FORTRAN", "PYTHON", "JAVASCRIPT", "ALGORITHMS", "DATABASE",
    "NETWORK", "SECURITY", "ENCRYPTION", "PROTOCOL", "INTERFACE",
    "ARCHITECTURE", "DEVELOPMENT", "SOFTWARE", "HARDWARE", "MEMORY",
    "PROCESSOR", "GRAPHICS", "AUDIO", "VIDEO", "GAMING", "SIMULATION",
    "VIRTUAL", "REALITY", "ARTIFICIAL", "INTELLIGENCE", "MACHINE",
    "LEARNING", "NEURAL", "ROBOTICS", "QUANTUM", "BLOCKCHAIN",
    "CYBERSECURITY", "ALGORITHM", "STRUCTURE", "FUNCTION", "VARIABLE",
    "CONSTANT", "POINTER", "REFERENCE"].map str

def underscore : UInt8 := 95

-- word and guessed are the strings in their arrays; the letters are arrays of 26.
structure HangmanGame where
  word : Bytes
  guessed : Bytes
  wrongLetters : Bytes
  wrongCount : Nat
  solved : Bool
  gameOver : Bool
  previousGuesses : Bytes
  guessCount : Nat
  deriving DecidableEq, Repr

-- roll: what rand gives. The copy needs room for the word and its terminator.
def hangmanGetRandomWord (roll : Nat) : Outcome Bytes := do
  let word ← load wordList (roll % wordList.length)
  if word.length < maxWordLength then .ok word else .error .bufferOverflow

def hangmanGameInit (roll : Nat) : Outcome HangmanGame := do
  let word ← hangmanGetRandomWord roll
  .ok {
    word := word
    guessed := word.map fun c => if c = 32 then 32 else underscore
    wrongLetters := List.replicate 26 0
    wrongCount := 0
    solved := false
    gameOver := false
    previousGuesses := List.replicate 26 0
    guessCount := 0 }

def toupper (c : UInt8) : UInt8 := if 97 ≤ c ∧ c ≤ 122 then c - 32 else c

def isalpha (c : UInt8) : Bool := decide (65 ≤ c ∧ c ≤ 90) || decide (97 ≤ c ∧ c ≤ 122)

def hangmanLetterAlreadyGuessed (guesses : Bytes) (letter : UInt8) (i : Nat) : Nat → Outcome Bool
  | 0 => .ok false
  | left + 1 => do
    if (← load guesses i) = letter then .ok true
    else hangmanLetterAlreadyGuessed guesses letter (i + 1) left

def hangmanIsWordComplete (guessed : Bytes) : Bool := decide (underscore ∉ guessed)

def missed (game : HangmanGame) (letter : UInt8) : Outcome HangmanGame := do
  let wrong ← store game.wrongLetters game.wrongCount letter
  .ok { game with
    wrongLetters := wrong
    wrongCount := game.wrongCount + 1
    gameOver := game.gameOver || decide (maxGuesses ≤ game.wrongCount + 1) }

def hangmanCheckLetter (game : HangmanGame) (c : UInt8) : Outcome (Int × HangmanGame) := do
  let letter := toupper c
  if ← hangmanLetterAlreadyGuessed game.previousGuesses letter 0 game.guessCount then .ok (-1, game)
  else
    let previous ← store game.previousGuesses game.guessCount letter
    let found := decide (letter ∈ game.word)
    let game := { game with
      previousGuesses := previous
      guessCount := game.guessCount + 1
      guessed := List.zipWith (fun w g => if w = letter then letter else g) game.word game.guessed }
    let game ← if found then .ok game else missed game letter
    let game := if hangmanIsWordComplete game.guessed then
      { game with solved := true, gameOver := true } else game
    .ok (if found then 1 else 0, game)

inductive HangmanTurn where
  | quit
  | waits
  | goesOn (game : HangmanGame) (stdin : Bytes)
  deriving DecidableEq, Repr

-- while (getchar() != '\n') does not end at the end of stdin.
def clearInput (game : HangmanGame) (stdin : Bytes) : HangmanTurn :=
  if 10 ∈ stdin then .goesOn game (stdin.drop ((stdin.takeWhile (· ≠ 10)).length + 1)) else .waits

-- Each "Press Enter" takes one byte with getchar.
def guessTurn (game : HangmanGame) (c : UInt8) (stdin : Bytes) : Outcome HangmanTurn := do
  let (result, game) ← hangmanCheckLetter game c
  .ok (.goesOn game (if result = 1 ∧ game.gameOver = true then stdin else stdin.tail))

def hangmanTurn (game : HangmanGame) (stdin : Bytes) : Outcome HangmanTurn :=
  if stdin = [] then .ok (.goesOn game stdin.tail)
  else
    let (line, rest) := fgets 10 stdin
    let input := line.takeWhile fun c => c ≠ 0 ∧ c ≠ 13 ∧ c ≠ 10
    if input = str "quit" ∨ input = str "q" then .ok .quit
    else
      match input with
      | [] => .ok (.goesOn game rest.tail)
      | [c] => if isalpha c then guessTurn game c rest else .ok (clearInput game rest)
      | _ => .ok (clearInput game rest)

-- `some none` where the player quits.
def hangmanLoop : Nat → HangmanGame → Bytes → Outcome (Option (Option HangmanGame))
  | 0, _, _ => .ok none
  | fuel + 1, game, stdin =>
    if game.gameOver then .ok (some (some game))
    else do
      match ← hangmanTurn game stdin with
      | .quit => .ok (some none)
      | .waits => .ok none
      | .goesOn game stdin => hangmanLoop fuel game stdin

def hangmanGameRun (fuel roll : Nat) (stdin : Bytes) : Outcome (Option (Option HangmanGame)) := do
  let game ← hangmanGameInit roll
  hangmanLoop fuel game stdin.tail

end Source

section Invariant

variable {game game' : HangmanGame} {guesses : List UInt8} {c letter : UInt8} {stdin : Bytes}

def Capital (c : UInt8) : Prop := 65 ≤ c ∧ c ≤ 90

instance (c : UInt8) : Decidable (Capital c) := inferInstanceAs (Decidable (_ ∧ _))

structure Played (game : HangmanGame) (guesses : List UInt8) : Prop where
  word : ∀ w ∈ game.word, Capital w
  nonempty : game.word ≠ []
  letters : ∀ g ∈ guesses, Capital g
  nodup : guesses.Nodup
  count : game.guessCount = guesses.length
  previous : ∃ unused, game.previousGuesses = guesses ++ unused ∧ guesses.length + unused.length = 26
  guessed : game.guessed = game.word.map fun w => if w ∈ guesses then w else underscore
  wrong : ∃ unused, game.wrongLetters = guesses.filter (fun g => g ∉ game.word) ++ unused ∧
    game.wrongCount + unused.length = 26
  wrongCount : game.wrongCount = (guesses.filter fun g => g ∉ game.word).length
  solved : game.solved = true ↔ ∀ w ∈ game.word, w ∈ guesses
  ended : game.gameOver = true ↔ game.solved = true ∨ game.wrongCount = maxGuesses
  notBoth : game.wrongCount < maxGuesses ∨ game.wrongCount = maxGuesses ∧ game.solved = false

def capitals : List UInt8 := (List.range 26).map fun i => UInt8.ofNat (65 + i)

theorem capital_iff_toNat : Capital c ↔ 65 ≤ c.toNat ∧ c.toNat ≤ 90 := by
  rw [Capital, UInt8.le_iff_toNat_le, UInt8.le_iff_toNat_le]
  rfl

theorem capital_iff : Capital c ↔ c ∈ capitals := by
  rw [capital_iff_toNat, capitals, List.mem_map]
  constructor
  · rintro ⟨hlow, hhigh⟩
    refine ⟨c.toNat - 65, List.mem_range.mpr (by omega), ?_⟩
    rw [Nat.add_sub_cancel' hlow, UInt8.ofNat_toNat]
  · rintro ⟨i, hi, rfl⟩
    have hi := List.mem_range.mp hi
    rw [UInt8.toNat_ofNat_of_lt' (by omega : 65 + i < 256)]
    omega

theorem capital_toupper (h : isalpha c = true) : Capital (toupper c) := by
  have hcase : (65 ≤ c ∧ c ≤ 90) ∨ (97 ≤ c ∧ c ≤ 122) := by
    simpa only [isalpha, Bool.or_eq_true, decide_eq_true_eq] using h
  rw [toupper]
  split
  · next hlower =>
    obtain ⟨hlow, hhigh⟩ := hlower
    rw [UInt8.le_iff_toNat_le] at hlow hhigh
    have hlow : 97 ≤ c.toNat := hlow
    have hhigh : c.toNat ≤ 122 := hhigh
    have hsub : (c - 32).toNat = c.toNat - 32 :=
      UInt8.toNat_sub_of_le c 32 (UInt8.le_iff_toNat_le.mpr (Nat.le_trans (by decide) hlow))
    rw [Capital, UInt8.le_iff_toNat_le, UInt8.le_iff_toNat_le, hsub]
    exact ⟨Nat.le_sub_of_add_le (by simpa using hlow), Nat.sub_le_of_le_add (by simpa using hhigh)⟩
  · next hlower => exact hcase.resolve_right hlower

theorem not_capital_underscore : ¬ Capital underscore := by decide

theorem length_guesses (hletters : ∀ g ∈ guesses, Capital g) (hnodup : guesses.Nodup) :
    guesses.length ≤ 26 := by
  have hsub : guesses ⊆ capitals := fun g hg => capital_iff.mp (hletters g hg)
  exact (hnodup.subperm hsub).length_le

theorem alreadyGuessed_eq (front guesses unused : Bytes) (letter : UInt8) :
    hangmanLetterAlreadyGuessed (front ++ guesses ++ unused) letter front.length guesses.length =
      .ok (decide (letter ∈ guesses)) := by
  induction guesses generalizing front with
  | nil => rfl
  | cons g guesses ih =>
    have hload : load (front ++ g :: guesses ++ unused) front.length = .ok g := by
      simpa using load_middle front (guesses ++ unused) g
    have hrest := ih (front ++ [g])
    rw [List.append_assoc front, List.singleton_append, List.length_append,
      List.length_singleton] at hrest
    rw [List.length_cons, hangmanLetterAlreadyGuessed, hload]
    simp only [bind, Except.bind, hrest]
    by_cases hg : g = letter
    · simp [hg]
    · simp [hg, Ne.symm hg]

theorem complete_iff (hword : ∀ w ∈ game.word, Capital w) (guesses : List UInt8) :
    hangmanIsWordComplete (game.word.map fun w => if w ∈ guesses then w else underscore) = true ↔
      ∀ w ∈ game.word, w ∈ guesses := by
  rw [hangmanIsWordComplete, decide_eq_true_iff, List.mem_map, not_exists]
  refine forall_congr' fun w => ?_
  by_cases hw : w ∈ game.word
  · have hother : w ≠ underscore := fun heq => not_capital_underscore (heq ▸ hword w hw)
    by_cases hg : w ∈ guesses <;> simp [hw, hg, hother]
  · simp [hw]

theorem guessed_next (word : Bytes) (guesses : List UInt8) (letter : UInt8) :
    List.zipWith (fun w g => if w = letter then letter else g) word
        (word.map fun w => if w ∈ guesses then w else underscore) =
      word.map fun w => if w ∈ guesses ++ [letter] then w else underscore := by
  rw [List.zipWith_map_right, List.zipWith_self]
  refine List.map_congr_left fun w _ => ?_
  by_cases hw : w = letter
  · simp [hw]
  · simp [hw]

theorem Played.asked (h : Played game guesses) (letter : UInt8) :
    hangmanLetterAlreadyGuessed game.previousGuesses letter 0 game.guessCount =
      .ok (decide (letter ∈ guesses)) := by
  obtain ⟨unused, hprevious, -⟩ := h.previous
  rw [hprevious, h.count]
  exact alreadyGuessed_eq [] guesses unused letter

theorem Played.noted (h : Played game guesses) (hletter : Capital letter) (hnew : letter ∉ guesses) :
    ∃ unused, store game.previousGuesses game.guessCount letter = .ok (guesses ++ letter :: unused) ∧
      guesses.length + 1 + unused.length = 26 := by
  obtain ⟨unused, hprevious, hlen⟩ := h.previous
  have hroom : (letter :: guesses).length ≤ 26 :=
    length_guesses (List.forall_mem_cons.mpr ⟨hletter, h.letters⟩)
      (List.nodup_cons.mpr ⟨hnew, h.nodup⟩)
  rw [List.length_cons] at hroom
  obtain ⟨x, rest, rfl⟩ := List.exists_cons_of_length_pos (by omega : 0 < unused.length)
  refine ⟨rest, ?_, ?_⟩
  · rw [hprevious, h.count]
    exact store_middle guesses rest x letter
  · rw [List.length_cons] at hlen
    omega

theorem Played.playing (h : Played game guesses) (hgoes : game.gameOver = false) :
    game.wrongCount < maxGuesses ∧ ¬ ∀ w ∈ game.word, w ∈ guesses := by
  have hnot : ¬ (game.solved = true ∨ game.wrongCount = maxGuesses) := fun hended => by
    rw [h.ended.mpr hended] at hgoes
    cases hgoes
  rw [not_or, h.solved] at hnot
  exact ⟨h.notBoth.resolve_right fun hboth => hnot.2 hboth.1, hnot.1⟩

theorem Played.found (h : Played game guesses) (hgoes : game.gameOver = false)
    (hletter : Capital letter)
    (hnew : letter ∉ guesses) (hin : letter ∈ game.word) {unused : Bytes}
    (hlen : guesses.length + 1 + unused.length = 26) {complete : Bool}
    (hcomplete : complete = true ↔ ∀ w ∈ game.word, w ∈ guesses ++ [letter]) :
    Played { game with
      previousGuesses := guesses ++ letter :: unused
      guessCount := game.guessCount + 1
      guessed := game.word.map fun w => if w ∈ guesses ++ [letter] then w else underscore
      solved := complete
      gameOver := complete } (guesses ++ [letter]) := by
  have hsame : (guesses ++ [letter]).filter (fun g => g ∉ game.word) =
      guesses.filter fun g => g ∉ game.word := by
    simp [List.filter_append, hin]
  obtain ⟨hfew, -⟩ := h.playing hgoes
  constructor
  · exact h.word
  · exact h.nonempty
  · exact List.forall_mem_append.mpr ⟨h.letters, by simpa using hletter⟩
  · exact List.nodup_append.mpr ⟨h.nodup, List.nodup_singleton _, fun g hg x hx heq =>
      hnew (List.mem_singleton.mp hx ▸ heq ▸ hg)⟩
  · simp [h.count]
  · exact ⟨unused, by simp, by simpa using hlen⟩
  · rfl
  · rw [hsame]
    exact h.wrong
  · rw [hsame]
    exact h.wrongCount
  · exact hcomplete
  · have hne : game.wrongCount ≠ maxGuesses := Nat.ne_of_lt hfew
    simp [hne]
  · exact .inl hfew

theorem Played.wrongly (h : Played game guesses) (hgoes : game.gameOver = false)
    (hletter : Capital letter)
    (hnew : letter ∉ guesses) (hout : letter ∉ game.word) {unused : Bytes}
    (hlen : guesses.length + 1 + unused.length = 26) :
    ∃ wrong, store game.wrongLetters game.wrongCount letter = .ok wrong ∧
      Played { game with
        previousGuesses := guesses ++ letter :: unused
        guessCount := game.guessCount + 1
        guessed := game.word.map fun w => if w ∈ guesses ++ [letter] then w else underscore
        wrongLetters := wrong
        wrongCount := game.wrongCount + 1
        gameOver := decide (maxGuesses ≤ game.wrongCount + 1) } (guesses ++ [letter]) := by
  have hmore : (guesses ++ [letter]).filter (fun g => g ∉ game.word) =
      guesses.filter (fun g => g ∉ game.word) ++ [letter] := by
    simp [List.filter_append, hout]
  obtain ⟨hfew, hleft⟩ := h.playing hgoes
  have hsix : maxGuesses = 6 := rfl
  obtain ⟨free, hwrong, hroom⟩ := h.wrong
  obtain ⟨x, rest, rfl⟩ := List.exists_cons_of_length_pos (by omega : 0 < free.length)
  have hsolved : game.solved = false := by
    rw [← Bool.not_eq_true, h.solved]
    exact hleft
  have hstill : ¬ ∀ w ∈ game.word, w ∈ guesses ++ [letter] := fun hall => hleft fun w hw =>
    (List.mem_append.mp (hall w hw)).resolve_right fun hlast =>
      hout (List.mem_singleton.mp hlast ▸ hw)
  refine ⟨guesses.filter (fun g => g ∉ game.word) ++ letter :: rest, ?_, ?_⟩
  · rw [hwrong, h.wrongCount]
    exact store_middle _ rest x letter
  constructor
  · exact h.word
  · exact h.nonempty
  · exact List.forall_mem_append.mpr ⟨h.letters, by simpa using hletter⟩
  · exact List.nodup_append.mpr ⟨h.nodup, List.nodup_singleton _, fun g hg x hx heq =>
      hnew (List.mem_singleton.mp hx ▸ heq ▸ hg)⟩
  · simp [h.count]
  · exact ⟨unused, by simp, by simpa using hlen⟩
  · rfl
  · rw [List.length_cons] at hroom
    exact ⟨rest, by rw [hmore]; simp, by simpa [Nat.add_assoc, Nat.add_comm 1] using hroom⟩
  · rw [hmore, List.length_append, List.length_singleton, h.wrongCount]
  · simp only [hsolved]
    exact iff_of_false Bool.false_ne_true hstill
  · have hlast : maxGuesses ≤ game.wrongCount + 1 ↔ game.wrongCount + 1 = maxGuesses := by omega
    simp [hsolved, hlast]
  · rcases Nat.lt_or_eq_of_le (Nat.succ_le_of_lt hfew) with hlt | heq
    · exact .inl hlt
    · exact .inr ⟨heq, hsolved⟩

theorem Played.check (h : Played game guesses) (hgoes : game.gameOver = false) (hc : isalpha c = true) :
    ∃ result game', hangmanCheckLetter game c = .ok (result, game') ∧
      (toupper c ∈ guesses ∧ game' = game ∨
        toupper c ∉ guesses ∧ game'.word = game.word ∧ Played game' (guesses ++ [toupper c])) := by
  have hletter := capital_toupper hc
  have hasked := h.asked (toupper c)
  rw [hangmanCheckLetter]
  simp only [hasked, bind, Except.bind]
  by_cases hold : toupper c ∈ guesses
  · exact ⟨-1, game, by simp [hold], .inl ⟨hold, rfl⟩⟩
  · obtain ⟨unused, hstore, hlen⟩ := h.noted hletter hold
    have hnext := guessed_next game.word guesses (toupper c)
    have hcomplete := complete_iff h.word (guesses ++ [toupper c])
    have hsolved : game.solved = false := by
      rw [← Bool.not_eq_true, h.solved]
      exact (h.playing hgoes).2
    rw [← h.guessed] at hnext
    by_cases hin : toupper c ∈ game.word
    · have hplayed := h.found hgoes hletter hold hin hlen hcomplete
      refine ⟨1, _, ?_, .inr ⟨hold, ?_, hplayed⟩⟩
      · simp only [hold, hin, hstore, hnext, decide_false, decide_true, Bool.false_eq_true,
          if_false, if_true]
        cases hangmanIsWordComplete
            (game.word.map fun w => if w ∈ guesses ++ [toupper c] then w else underscore) with
        | true => rfl
        | false => simp only [hsolved, hgoes, Bool.false_eq_true, if_false]
      · rfl
    · obtain ⟨wrong, hwrong, hplayed⟩ := h.wrongly hgoes hletter hold hin hlen
      have hstill : ¬ ∀ w ∈ game.word, w ∈ guesses ++ [toupper c] := by
        rw [← hplayed.solved]
        simp [hsolved]
      refine ⟨0, _, ?_, .inr ⟨hold, ?_, hplayed⟩⟩
      · simp only [hold, hin, hstore, hnext, missed, hwrong, hgoes, decide_false, Bool.false_eq_true,
          if_false, Bool.false_or, bind, Except.bind]
        rw [if_neg (mt hcomplete.mp hstill)]
      · rfl

end Invariant

section Runs

variable {game game' : HangmanGame} {guesses : List UInt8} {stdin stdin' : Bytes} {fuel fuel' : Nat}
variable {result : Option HangmanGame}

theorem words_capital : ∀ word ∈ wordList,
    word ≠ [] ∧ word.length < maxWordLength ∧ ∀ w ∈ word, Capital w := by
  -- A Bool for the kernel to evaluate, on the numbers of the bytes.
  have hall : (wordList.all fun word => !word.isEmpty && Nat.blt word.length maxWordLength &&
      word.all fun w => Nat.ble 65 w.toNat && Nat.ble w.toNat 90) = true := by decide +kernel
  intro word hword
  have hone := List.all_eq_true.mp hall word hword
  simp only [Bool.and_eq_true, Bool.not_eq_true', List.isEmpty_eq_false_iff, List.all_eq_true,
    Nat.ble_eq, Nat.blt_eq] at hone
  exact ⟨hone.1.1, hone.1.2, fun w hw => capital_iff_toNat.mpr (hone.2 w hw)⟩

theorem randomWord_eq (roll : Nat) :
    ∃ word ∈ wordList, hangmanGetRandomWord roll = .ok word := by
  have hindex : roll % wordList.length < wordList.length := Nat.mod_lt _ (by decide)
  have hword := List.getElem_mem hindex
  refine ⟨_, hword, ?_⟩
  rw [hangmanGetRandomWord, load, List.getElem?_eq_getElem hindex]
  exact if_pos (words_capital _ hword).2.1

theorem played_init (roll : Nat) :
    ∃ game, hangmanGameInit roll = .ok game ∧ game.word ∈ wordList ∧ Played game [] := by
  obtain ⟨word, hword, hload⟩ := randomWord_eq roll
  obtain ⟨hne, -, hcapital⟩ := words_capital word hword
  have hblank : word.map (fun c => if c = 32 then 32 else underscore) =
      word.map fun w => if w ∈ ([] : List UInt8) then w else underscore := by
    refine List.map_congr_left fun w hw => ?_
    have hspace : w ≠ 32 := fun heq => absurd (heq ▸ hcapital w hw) (by decide)
    rw [if_neg hspace, if_neg List.not_mem_nil]
  obtain ⟨w, hw⟩ := List.exists_mem_of_ne_nil word hne
  refine ⟨_, by rw [hangmanGameInit, hload]; rfl, hword, hcapital, hne,
    fun g hg => absurd hg List.not_mem_nil, List.nodup_nil, rfl, ⟨_, rfl, rfl⟩, hblank, ⟨_, rfl, rfl⟩, rfl, ?_, by simp [maxGuesses],
    .inl (Nat.succ_pos 5)⟩
  exact iff_of_false Bool.false_ne_true fun hall => List.not_mem_nil (hall w hw)

theorem Played.guessTurn (h : Played game guesses) (hgoes : game.gameOver = false) {c : UInt8}
    (hc : isalpha c = true) (stdin : Bytes) : ∃ game' stdin', guessTurn game c stdin =
      .ok (.goesOn game' stdin') ∧ stdin'.length ≤ stdin.length ∧
        ∃ guesses', Played game' guesses' ∧ game'.word = game.word := by
  obtain ⟨result, game', hcheck, hcase⟩ := h.check hgoes hc
  refine ⟨game', if result = 1 ∧ game'.gameOver = true then stdin else stdin.tail, ?_, ?_, ?_⟩
  · rw [Games.guessTurn, hcheck]
    rfl
  · split
    · exact Nat.le_refl _
    · rw [List.length_tail]
      omega
  · rcases hcase with ⟨-, rfl⟩ | ⟨-, hword, hplayed⟩
    · exact ⟨guesses, h, rfl⟩
    · exact ⟨_, hplayed, hword⟩

theorem length_fgets (hne : stdin ≠ []) : (fgets 10 stdin).2.length < stdin.length := by
  have hpos := List.length_pos_iff.mpr hne
  rw [fgets, List.length_drop, List.length_take]
  omega

theorem length_clearInput (h : clearInput game stdin = .goesOn game' stdin') :
    game' = game ∧ stdin'.length ≤ stdin.length := by
  rw [clearInput] at h
  split at h
  · obtain ⟨rfl, rfl⟩ := HangmanTurn.goesOn.inj h
    exact ⟨rfl, by rw [List.length_drop]; omega⟩
  · cases h

theorem Played.turn (h : Played game guesses) (hgoes : game.gameOver = false) (stdin : Bytes) :
    ∃ turn, hangmanTurn game stdin = .ok turn ∧ ∀ game' stdin', turn = .goesOn game' stdin' →
      (stdin = [] ∧ game' = game ∧ stdin' = [] ∨ stdin'.length < stdin.length) ∧
        ∃ guesses', Played game' guesses' ∧ game'.word = game.word := by
  by_cases hne : stdin = []
  · refine ⟨_, by rw [hangmanTurn, if_pos hne], fun game' stdin' hon => ?_⟩
    obtain ⟨rfl, rfl⟩ := HangmanTurn.goesOn.inj hon
    exact ⟨.inl ⟨hne, rfl, by rw [hne]; rfl⟩, guesses, h, rfl⟩
  · have hless := length_fgets hne
    have hclear : ∀ game' stdin', clearInput game (fgets 10 stdin).2 = .goesOn game' stdin' →
        (stdin = [] ∧ game' = game ∧ stdin' = [] ∨ stdin'.length < stdin.length) ∧
          ∃ guesses', Played game' guesses' ∧ game'.word = game.word := by
      intro game' stdin' hon
      obtain ⟨rfl, hlen⟩ := length_clearInput hon
      exact ⟨.inr (by omega), guesses, h, rfl⟩
    rw [hangmanTurn, if_neg hne]
    simp only
    split
    · exact ⟨_, rfl, fun _ _ hon => by cases hon⟩
    · split
      · refine ⟨_, rfl, fun game' stdin' hon => ?_⟩
        obtain ⟨rfl, rfl⟩ := HangmanTurn.goesOn.inj hon
        refine ⟨.inr ?_, guesses, h, rfl⟩
        rw [List.length_tail]
        omega
      · split
        · next hc =>
          obtain ⟨game', stdin', hturn, hlen, hplayed⟩ := h.guessTurn hgoes hc (fgets 10 stdin).2
          refine ⟨_, hturn, fun next behind hon => ?_⟩
          obtain ⟨rfl, rfl⟩ := HangmanTurn.goesOn.inj hon
          exact ⟨.inr (by omega), hplayed⟩
        · exact ⟨_, rfl, hclear⟩
      · exact ⟨_, rfl, hclear⟩

theorem Played.loop (h : Played game guesses) (fuel : Nat) (stdin : Bytes) :
    ∃ r, hangmanLoop fuel game stdin = .ok r ∧ ∀ last, r = some (some last) →
      last.gameOver = true ∧ last.word = game.word ∧ ∃ guesses', Played last guesses' := by
  induction fuel generalizing game guesses stdin with
  | zero => exact ⟨none, rfl, fun _ hr => by cases hr⟩
  | succ fuel ih =>
    rw [hangmanLoop]
    by_cases hover : game.gameOver = true
    · rw [if_pos hover]
      refine ⟨_, rfl, fun last hr => ?_⟩
      obtain rfl := Option.some.inj (Option.some.inj hr)
      exact ⟨hover, rfl, guesses, h⟩
    · rw [if_neg hover]
      obtain ⟨turn, hturn, hon⟩ := h.turn (by simpa using hover) stdin
      rw [hturn]
      cases turn with
      | quit => exact ⟨_, rfl, fun _ hr => by cases hr⟩
      | waits => exact ⟨_, rfl, fun _ hr => by cases hr⟩
      | goesOn game' stdin' =>
        obtain ⟨-, guesses', hplayed, hword⟩ := hon game' stdin' rfl
        obtain ⟨r, hrun, hlast⟩ := ih hplayed stdin'
        exact ⟨r, hrun, fun last hr => ⟨(hlast last hr).1, (hlast last hr).2.1.trans hword,
          (hlast last hr).2.2⟩⟩

theorem loop_nil (hgoes : game.gameOver = false) (fuel : Nat) :
    hangmanLoop fuel game [] = .ok none := by
  induction fuel with
  | zero => rfl
  | succ fuel ih =>
    rw [hangmanLoop, hgoes, if_neg Bool.false_ne_true, hangmanTurn, if_pos rfl]
    exact ih

theorem loop_mono (hle : fuel ≤ fuel') (hrun : hangmanLoop fuel game stdin = .ok (some result)) :
    hangmanLoop fuel' game stdin = .ok (some result) := by
  induction fuel generalizing fuel' game stdin with
  | zero => cases hrun
  | succ fuel ih =>
    obtain ⟨more, rfl⟩ := Nat.exists_eq_add_of_le' (Nat.lt_of_lt_of_le (Nat.succ_pos fuel) hle)
    rw [hangmanLoop] at hrun ⊢
    by_cases hover : game.gameOver = true
    · rwa [if_pos hover] at hrun ⊢
    · rw [if_neg hover] at hrun ⊢
      cases hturn : hangmanTurn game stdin with
      | error e =>
        rw [hturn] at hrun
        cases hrun
      | ok turn =>
        rw [hturn] at hrun
        cases turn with
        | quit => exact hrun
        | waits => cases hrun
        | goesOn game' stdin' =>
          have hless : fuel ≤ more := by omega
          exact ih hless hrun

theorem Played.returns (h : Played game guesses)
    (hrun : hangmanLoop fuel game stdin = .ok (some result)) :
    hangmanLoop (stdin.length + 1) game stdin = .ok (some result) := by
  induction fuel generalizing game guesses stdin with
  | zero => cases hrun
  | succ fuel ih =>
    rw [hangmanLoop] at hrun ⊢
    by_cases hover : game.gameOver = true
    · rwa [if_pos hover] at hrun ⊢
    · rw [if_neg hover] at hrun ⊢
      have hgoes : game.gameOver = false := by simpa using hover
      obtain ⟨turn, hturn, hon⟩ := h.turn hgoes stdin
      rw [hturn] at hrun ⊢
      cases turn with
      | quit => exact hrun
      | waits => cases hrun
      | goesOn game' stdin' =>
        obtain ⟨hless, guesses', hplayed, -⟩ := hon game' stdin' rfl
        rcases hless with ⟨-, rfl, rfl⟩ | hless
        · have hnone := (loop_nil hgoes fuel).symm.trans hrun
          cases hnone
        · exact loop_mono hless (ih hplayed hrun)

theorem Played.guess_count (h : Played game guesses) (hover : game.gameOver = true) :
    (game.solved = false ↔ game.wrongCount = maxGuesses) ∧ 0 < game.guessCount ∧
      game.guessCount ≤ game.word.toFinset.card + 5 := by
  have hends : game.solved = false ↔ game.wrongCount = maxGuesses := by
    rcases h.ended.mp hover with hsolved | hsix
    · have hfew := h.notBoth.resolve_right fun hboth => by simp [hsolved] at hboth
      exact iff_of_false (by simp [hsolved]) (Nat.ne_of_lt hfew)
    · exact iff_of_true (h.notBoth.resolve_left (by omega)).2 hsix
  have hparts : (guesses.filter fun g => g ∈ game.word).length + game.wrongCount = game.guessCount := by
    have hsum := List.length_eq_length_filter_add (l := guesses) fun g => decide (g ∈ game.word)
    have hflip : guesses.filter (fun g => !decide (g ∈ game.word)) =
        guesses.filter fun g => g ∉ game.word := by simp
    rw [hflip, ← h.wrongCount, ← h.count] at hsum
    exact hsum.symm
  have hright : (guesses.filter fun g => g ∈ game.word).toFinset ⊆ game.word.toFinset := fun g hg => by
    simpa using (List.mem_filter.mp (List.mem_toFinset.mp hg)).2
  have hcard := List.toFinset_card_of_nodup (h.nodup.filter fun g => decide (g ∈ game.word))
  refine ⟨hends, ?_, ?_⟩
  · rw [h.count]
    refine List.length_pos_iff.mpr fun hnil => ?_
    rcases h.ended.mp hover with hsolved | hsix
    · obtain ⟨w, hw⟩ := List.exists_mem_of_ne_nil _ h.nonempty
      exact List.not_mem_nil (hnil ▸ h.solved.mp hsolved w hw)
    · have hzero := h.wrongCount
      rw [hnil, List.filter_nil, List.length_nil, hsix] at hzero
      cases hzero
  · by_cases hsolved : game.solved = true
    · have hle := Finset.card_le_card hright
      have hfew : game.wrongCount < 6 :=
        h.notBoth.resolve_right fun hboth => by simp [hsolved] at hboth
      omega
    · -- One letter of the word is not guessed.
      have hmissing : (guesses.filter fun g => g ∈ game.word).toFinset ⊂ game.word.toFinset := by
        refine Finset.ssubset_iff_subset_ne.mpr
          ⟨hright, fun heq => hsolved (h.solved.mpr fun w hw => ?_)⟩
        have hin : w ∈ (guesses.filter fun g => g ∈ game.word).toFinset :=
          heq ▸ List.mem_toFinset.mpr hw
        exact (List.mem_filter.mp (List.mem_toFinset.mp hin)).1
      have hlt := Finset.card_lt_card hmissing
      have hsix := hends.mp (by simpa using hsolved)
      have hval : maxGuesses = 6 := rfl
      omega

theorem hangman_ends_well (fuel roll : Nat) (stdin : Bytes) :
    ∃ r, hangmanGameRun fuel roll stdin = .ok r ∧
      (∀ game, r = some (some game) → game.word ∈ wordList ∧
        (∃ guesses, Played game guesses) ∧ (game.solved = false ↔ game.wrongCount = maxGuesses) ∧
          0 < game.guessCount ∧ game.guessCount ≤ game.word.toFinset.card + 5) ∧
      ∀ result, r = some result → hangmanGameRun (stdin.length + 1) roll stdin = .ok (some result) := by
  obtain ⟨game, hinit, hword, hplayed⟩ := played_init roll
  obtain ⟨r, hrun, hlast⟩ := hplayed.loop fuel stdin.tail
  refine ⟨r, by rw [hangmanGameRun, hinit]; exact hrun, fun last hr => ?_, fun result hr => ?_⟩
  · obtain ⟨hover, hsame, guesses, hends⟩ := hlast last hr
    exact ⟨hsame ▸ hword, ⟨guesses, hends⟩, hends.guess_count hover⟩
  · rw [hr] at hrun
    have hearly := hplayed.returns hrun
    rw [hangmanGameRun, hinit]
    refine loop_mono ?_ hearly
    rw [List.length_tail]
    omega

end Runs

end ZoraVM.Games
