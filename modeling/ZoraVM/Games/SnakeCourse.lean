import ZoraVM.Games.SnakeBody

namespace ZoraVM.Games

open Foundation

section Asked

variable {d asked : Direction} {dirs : List Direction}

def accept (current asked : Direction) : Direction :=
  if current ≠ asked.opposite then asked else current

def OnAxis (d asked : Direction) : Prop := asked = d ∨ asked = d.opposite

instance (d asked : Direction) : Decidable (OnAxis d asked) := inferInstanceAs (Decidable (_ ∨ _))

-- A turn aside, then one back, and none aside after it.
def Reverses (d : Direction) (dirs : List Direction) : Prop :=
  ∃ front aside behind, dirs = front ++ aside :: d.opposite :: behind ∧ ¬ OnAxis d aside ∧
    ∀ asked ∈ behind, OnAxis d asked

theorem accept_eq_opposite_iff (d current asked : Direction) : accept current asked = d.opposite ↔
    current = d.opposite ∧ OnAxis d asked ∨ ¬ OnAxis d current ∧ asked = d.opposite := by
  cases d <;> cases current <;> cases asked <;> decide

theorem onAxis_accept (d current asked : Direction) :
    OnAxis d (accept current asked) ↔ OnAxis d asked := by
  cases d <;> cases current <;> cases asked <;> decide

theorem aside_iff (d : Direction) (dirs : List Direction) :
    ¬ OnAxis d (dirs.foldl accept d) ↔ ∃ front aside, dirs = front ++ [aside] ∧ ¬ OnAxis d aside := by
  induction dirs using List.reverseRecOn with
  | nil => simp [OnAxis]
  | append_singleton dirs asked _ =>
    rw [List.foldl_append, List.foldl_cons, List.foldl_nil, onAxis_accept]
    constructor
    · exact fun h => ⟨dirs, asked, rfl, h⟩
    · rintro ⟨front, aside, heq, haside⟩
      obtain ⟨-, rfl⟩ := List.append_singleton_inj.mp heq
      exact haside

theorem reverses_concat : Reverses d (dirs ++ [asked]) ↔
    Reverses d dirs ∧ OnAxis d asked ∨
      (∃ front aside, dirs = front ++ [aside] ∧ ¬ OnAxis d aside) ∧ asked = d.opposite := by
  constructor
  · rintro ⟨front, aside, behind, heq, haside, hbehind⟩
    induction behind using List.reverseRecOn with
    | nil =>
      rw [List.append_cons front] at heq
      obtain ⟨rfl, rfl⟩ := List.append_singleton_inj.mp heq
      exact .inr ⟨⟨front, aside, rfl, haside⟩, rfl⟩
    | append_singleton behind last _ =>
      rw [← List.cons_append, ← List.cons_append, ← List.append_assoc] at heq
      obtain ⟨rfl, rfl⟩ := List.append_singleton_inj.mp heq
      exact .inl ⟨⟨front, aside, behind, rfl, haside,
        fun a ha => hbehind a (List.mem_append_left _ ha)⟩, hbehind _ (by simp)⟩
  · rintro (⟨⟨front, aside, behind, rfl, haside, hbehind⟩, hasked⟩ | ⟨⟨front, aside, rfl, haside⟩, rfl⟩)
    · refine ⟨front, aside, behind ++ [asked], by simp, haside, fun a ha => ?_⟩
      rcases List.mem_append.mp ha with ha | ha
      · exact hbehind a ha
      · exact List.mem_singleton.mp ha ▸ hasked
    · exact ⟨front, aside, [], by simp, haside, nofun⟩

theorem reverses_iff (d : Direction) (dirs : List Direction) :
    dirs.foldl accept d = d.opposite ↔ Reverses d dirs := by
  induction dirs using List.reverseRecOn with
  | nil =>
    refine iff_of_false (fun h => ?_) ?_
    · cases d <;> cases h
    · rintro ⟨front, aside, behind, heq, -⟩
      simp at heq
  | append_singleton dirs asked ih =>
    rw [List.foldl_append, List.foldl_cons, List.foldl_nil, accept_eq_opposite_iff, ih, aside_iff,
      reverses_concat]

end Asked

section Turns

-- The keys handled before a call of snake_update_game, and the values rand gives to that call.
structure SnakeTurn where
  keys : List Int
  rolls : List (Nat × Nat)
  deriving DecidableEq, Repr

def takeTurn (game : SnakeGame) (turn : SnakeTurn) : Outcome (Option SnakeGame) :=
  let game := handleKeys game turn.keys
  if game.gameOver then .ok (some game) else snakeUpdateGame game turn.rolls

def turnStep (game : SnakeGame) (turn : SnakeTurn) : Option SnakeGame :=
  if game.gameOver then none
  else
    match takeTurn game turn with
    | .ok game => game
    | .error _ => none

-- The directions that the keys ask for; `none` where one of them is for the end of the game.
def askedFor : List Int → Option (List Direction)
  | [] => some []
  | key :: keys =>
    match keyOf key with
    | .steer d => (askedFor keys).map (d :: ·)
    | .quit => none
    | .other => askedFor keys

def KeepsCourse (game : SnakeGame) (turn : SnakeTurn) : Prop :=
  ∀ game', turnStep game turn = some game' → game'.snake.body[0]? ≠ game.snake.body[1]?

def FitsCourse (game : SnakeGame) (turn : SnakeTurn) : Prop :=
  ∀ dirs ∈ askedFor turn.keys, ¬ Reverses game.snake.direction dirs

def turned (game : SnakeGame) (d : Direction) : SnakeGame :=
  { game with snake := { game.snake with direction := d } }

variable {game game' : SnakeGame} {keys : List Int} {turn : SnakeTurn}

theorem steer_eq (game : SnakeGame) (d : Direction) :
    steer game d = turned game (accept game.snake.direction d) := by
  rw [steer, accept]
  split
  · rfl
  · rfl

theorem handleKeys_asked {dirs : List Direction} (hover : game.gameOver = false)
    (hasked : askedFor keys = some dirs) :
    handleKeys game keys = turned game (dirs.foldl accept game.snake.direction) := by
  induction keys generalizing game dirs with
  | nil =>
    obtain rfl := Option.some.inj hasked
    rfl
  | cons key keys ih =>
    rw [askedFor] at hasked
    rw [handleKeys, handleKey]
    cases hkey : keyOf key with
    | steer d =>
      rw [hkey] at hasked
      obtain ⟨dirs, hrest, rfl⟩ := Option.map_eq_some_iff.mp hasked
      have hover' : (turned game (accept game.snake.direction d)).gameOver = false := hover
      simp only [steer_eq, hover', Bool.false_eq_true, if_false]
      exact ih hover' hrest
    | quit =>
      rw [hkey] at hasked
      cases hasked
    | other =>
      rw [hkey] at hasked
      simp only [hover, Bool.false_eq_true, if_false]
      exact ih hover hasked

theorem handleKeys_quit (hasked : askedFor keys = none) :
    (handleKeys game keys).gameOver = true ∧
      (handleKeys game keys).snake.body = game.snake.body := by
  induction keys generalizing game with
  | nil => cases hasked
  | cons key keys ih =>
    obtain ⟨direction, gameOver, heq⟩ := handleKey_eq game key
    have hbody : (handleKey game key).snake.body = game.snake.body := by rw [heq]
    rw [handleKeys]
    split
    · rename_i hover
      exact ⟨hover, hbody⟩
    · rename_i hover
      rw [← hbody]
      refine ih ?_
      rw [askedFor] at hasked
      cases hkey : keyOf key with
      | steer d =>
        rw [hkey] at hasked
        exact Option.map_eq_none_iff.mp hasked
      | quit =>
        rw [handleKey, hkey] at hover
        exact absurd rfl hover
      | other =>
        rw [hkey] at hasked
        exact hasked

end Turns

section Frames

variable {game : SnakeGame}

def gameTurns : SnakeGame → List SnakeTurn → Outcome (Option SnakeGame)
  | game, [] => .ok (some game)
  | game, turn :: turns =>
    if game.gameOver then .ok (some game)
    else do
      match ← takeTurn game turn with
      | none => .ok none
      | some game => gameTurns game turns

-- The frames come in pairs, of which the second ends with an update.
def pairTurn (pair : Frame × Frame) : SnakeTurn :=
  ⟨[pair.1.first, pair.1.second, pair.2.first, pair.2.second], pair.2.rolls⟩

def frameTurns (first : Frame) (pairs : List (Frame × Frame)) : List SnakeTurn :=
  ⟨[first.first, first.second], first.rolls⟩ :: pairs.map pairTurn

theorem handleKeys_append (game : SnakeGame) (keys keys' : List Int)
    (hover : game.gameOver = false) : handleKeys game (keys ++ keys') =
      if (handleKeys game keys).gameOver then handleKeys game keys
      else handleKeys (handleKeys game keys) keys' := by
  induction keys generalizing game with
  | nil => simp [handleKeys, hover]
  | cons key keys ih =>
    rw [List.cons_append, handleKeys, handleKeys]
    cases hkey : (handleKey game key).gameOver with
    | true => simp [hkey]
    | false => simpa using ih _ hkey

theorem takeTurn_append (hover : game.gameOver = false) (keys keys' : List Int)
    (rolls : List (Nat × Nat)) : takeTurn game ⟨keys ++ keys', rolls⟩ =
      if (handleKeys game keys).gameOver then .ok (some (handleKeys game keys))
      else takeTurn (handleKeys game keys) ⟨keys', rolls⟩ := by
  cases hkeys : (handleKeys game keys).gameOver with
  | true => simp [takeTurn, handleKeys_append game keys keys' hover, hkeys]
  | false => simp [takeTurn, handleKeys_append game keys keys' hover, hkeys]

theorem snakeGameRun_over (hover : game.gameOver = true) (counter : Nat) (frames : List Frame) :
    snakeGameRun counter game frames = .ok (some game) := by
  cases frames with
  | nil => rfl
  | cons frame frames => rw [snakeGameRun, hover, if_pos rfl]

theorem gameTurns_over (hover : game.gameOver = true) (turns : List SnakeTurn) :
    gameTurns game turns = .ok (some game) := by
  cases turns with
  | nil => rfl
  | cons turn turns => rw [gameTurns, hover, if_pos rfl]

theorem snakeGameRun_pairs (counter : Nat) (hodd : counter % 2 = 1) (game : SnakeGame)
    (pairs : List (Frame × Frame)) :
    snakeGameRun counter game (pairs.flatMap fun pair => [pair.1, pair.2]) =
      gameTurns game (pairs.map pairTurn) := by
  induction pairs generalizing counter game with
  | nil => rfl
  | cons pair pairs ih =>
    rw [List.flatMap_cons, List.cons_append, List.cons_append, List.nil_append, List.map_cons]
    cases hover : game.gameOver with
    | true => rw [snakeGameRun_over hover, gameTurns_over hover]
    | false =>
      have hturn := takeTurn_append hover [pair.1.first, pair.1.second]
        [pair.2.first, pair.2.second] pair.2.rolls
      rw [gameTurns, pairTurn, hover]
      simp only [List.cons_append, List.nil_append] at hturn
      rw [hturn, snakeGameRun, hover]
      generalize handleKeys game [pair.1.first, pair.1.second] = game₁
      cases hover₁ : game₁.gameOver with
      | true => simp [gameTurns_over hover₁, hover₁, bind, Except.bind]
      | false =>
        have hodd₁ : counter % 2 ≠ 0 := by omega
        have heven : (counter + 1) % 2 = 0 := by omega
        simp only [Bool.false_eq_true, if_false, hodd₁, snakeGameRun, hover₁, heven, if_true, takeTurn]
        generalize handleKeys game₁ [pair.2.first, pair.2.second] = game₂
        cases hover₂ : game₂.gameOver with
        | true => simp [gameTurns_over hover₂, bind, Except.bind]
        | false =>
          simp only [Bool.false_eq_true, if_false, bind, Except.bind]
          cases snakeUpdateGame game₂ pair.2.rolls with
          | error fault => rfl
          | ok found =>
            cases found with
            | none => rfl
            | some game' => exact ih (counter + 1 + 1) (by omega) game'

theorem snakeGameRun_eq (first : Frame) (game : SnakeGame) (pairs : List (Frame × Frame)) :
    snakeGameRun 0 game (first :: pairs.flatMap fun pair => [pair.1, pair.2]) =
      gameTurns game (frameTurns first pairs) := by
  cases hover : game.gameOver with
  | true => rw [snakeGameRun_over hover, gameTurns_over hover]
  | false =>
    rw [frameTurns, snakeGameRun, gameTurns, takeTurn]
    simp only [hover, Bool.false_eq_true, if_false, Nat.zero_mod, if_true]
    generalize handleKeys game [first.first, first.second] = game₁
    cases hover₁ : game₁.gameOver with
    | true => simp [gameTurns_over hover₁, bind, Except.bind]
    | false =>
      simp only [Bool.false_eq_true, if_false, bind, Except.bind]
      cases snakeUpdateGame game₁ first.rolls with
      | error fault => rfl
      | ok found =>
        cases found with
        | none => rfl
        | some game' => exact snakeGameRun_pairs 1 rfl game' pairs

theorem run_of_gameTurns {game' : SnakeGame} {turns : List SnakeTurn}
    (h : gameTurns game turns = .ok (some game')) :
    ∃ taken, taken <+: turns ∧ Run turnStep (fun _ _ => True) game taken game' := by
  induction turns generalizing game with
  | nil =>
    obtain rfl := Option.some.inj (Except.ok.inj h)
    exact ⟨[], List.prefix_refl [], .start⟩
  | cons turn turns ih =>
    rw [gameTurns] at h
    split at h
    · obtain rfl := Option.some.inj (Except.ok.inj h)
      exact ⟨[], List.nil_prefix, .start⟩
    · rename_i hover
      obtain ⟨found, htaken, hrest⟩ := Outcome.bind_eq_ok.mp h
      cases found with
      | none => cases hrest
      | some game₁ =>
        obtain ⟨taken, hprefix, hrun⟩ := ih hrest
        have hstep : turnStep game turn = some game₁ := by
          rw [turnStep, if_neg hover, htaken]
        exact ⟨turn :: taken, List.cons_prefix_cons.mpr ⟨rfl, hprefix⟩,
          (Run.single trivial hstep).append hrun⟩

end Frames

section Courses

variable {game game' : SnakeGame} {keys : List Int} {turn : SnakeTurn} {turns : List SnakeTurn}
variable {head last neck : Position} {rest behind : List Position} {rolls : List (Nat × Nat)}

def Heading (game : SnakeGame) : Prop :=
  ∃ neck behind, game.snake.body = neck.moved game.snake.direction :: neck :: behind

theorem moved_moved_eq_iff (p : Position) (d e : Direction) :
    (p.moved d).moved e = p ↔ e = d.opposite := by
  obtain ⟨x, y⟩ := p
  cases d <;> cases e <;> simp [Position.moved, Direction.opposite] <;> omega

theorem moved_ne (p : Position) (d : Direction) : p.moved d ≠ p := by
  obtain ⟨x, y⟩ := p
  cases d <;> simp [Position.moved]

theorem update_snake (h : Laid game head rest last behind)
    (hrun : snakeUpdateGame game rolls = .ok (some game')) :
    game'.snake.body = head.moved game.snake.direction :: head :: rest ++ behind ∧
      game'.snake.direction = game.snake.direction := by
  rw [h.update] at hrun
  split at hrun
  · obtain rfl := Option.some.inj (Except.ok.inj hrun)
    exact ⟨rfl, rfl⟩
  · split at hrun
    · rw [(snakeGenerateFood_some hrun).2]
      exact ⟨rfl, rfl⟩
    · obtain rfl := Option.some.inj (Except.ok.inj hrun)
      exact ⟨rfl, rfl⟩

theorem turnStep_some (h : turnStep game turn = some game') :
    game.gameOver = false ∧ takeTurn game turn = .ok (some game') := by
  rw [turnStep] at h
  split at h
  · cases h
  · rename_i hover
    refine ⟨Bool.eq_false_iff.mpr hover, ?_⟩
    split at h
    · rename_i hrun
      rw [hrun, h]
    · cases h

theorem handleKeys_stored (h : Stored game) (keys : List Int) : Stored (handleKeys game keys) := by
  induction keys generalizing game with
  | nil => exact h
  | cons key keys ih =>
    obtain ⟨direction, gameOver, heq⟩ := handleKey_eq game key
    have hkey : Stored (handleKey game key) := heq ▸ ⟨h.size, h.two, h.within, h.blank⟩
    rw [handleKeys]
    split
    · exact hkey
    · exact ih hkey

theorem turn_moves {dirs : List Direction} (h : Stored game) (hheading : Heading game)
    (hasked : askedFor turn.keys = some dirs) (hstep : turnStep game turn = some game') :
    Heading game' ∧ (game'.snake.body[0]? = game.snake.body[1]? ↔
      dirs.foldl accept game.snake.direction = game.snake.direction.opposite) := by
  obtain ⟨hover, hrun⟩ := turnStep_some hstep
  obtain ⟨neck, tail, hbody⟩ := hheading
  simp only [takeTurn, handleKeys_asked hover hasked] at hrun
  have hturned : Stored (turned game (dirs.foldl accept game.snake.direction)) :=
    ⟨h.size, h.two, h.within, h.blank⟩
  obtain ⟨head, rest, last, behind, hlaid, -, -⟩ := hturned.laid
  have hhead : head = neck.moved game.snake.direction := by
    have heq := hlaid.body.symm.trans hbody
    exact (List.cons.inj heq).1
  rw [if_neg (by rw [turned, hover]; nofun)] at hrun
  obtain ⟨hbody', hdirection⟩ := update_snake hlaid hrun
  refine ⟨⟨head, rest ++ behind, ?_⟩, ?_⟩
  · rw [hbody', hdirection]
    rfl
  · rw [hbody', hbody, hhead]
    simp only [List.cons_append, List.getElem?_cons_zero, List.getElem?_cons_succ, Option.some.injEq]
    exact moved_moved_eq_iff _ _ _

theorem turn_quits (hheading : Heading game) (hasked : askedFor turn.keys = none)
    (hstep : turnStep game turn = some game') :
    game'.gameOver = true ∧ game'.snake.body[0]? ≠ game.snake.body[1]? := by
  obtain ⟨-, hrun⟩ := turnStep_some hstep
  obtain ⟨hover, hbody⟩ := @handleKeys_quit game turn.keys hasked
  obtain ⟨neck, tail, hneck⟩ := hheading
  simp only [takeTurn, hover, if_true] at hrun
  obtain rfl := Option.some.inj (Except.ok.inj hrun)
  refine ⟨hover, ?_⟩
  rw [hbody, hneck]
  simpa using moved_ne neck game.snake.direction

theorem stored_turn (h : Stored game) (hstep : turnStep game turn = some game') : Stored game' := by
  obtain ⟨-, hrun⟩ := turnStep_some hstep
  have hkeys := handleKeys_stored h turn.keys
  rw [takeTurn] at hrun
  split at hrun
  · obtain rfl := Option.some.inj (Except.ok.inj hrun)
    exact hkeys
  · exact hkeys.update hrun

theorem keepsCourse_iff (h : Stored game) (hheading : Heading game)
    (hstep : turnStep game turn = some game') : KeepsCourse game turn ↔ FitsCourse game turn := by
  have hkeeps : KeepsCourse game turn ↔ game'.snake.body[0]? ≠ game.snake.body[1]? := by
    rw [KeepsCourse, hstep]
    simp only [Option.some.injEq, forall_eq']
  rw [hkeeps, FitsCourse]
  cases hasked : askedFor turn.keys with
  | none => exact iff_of_true (turn_quits hheading hasked hstep).2 nofun
  | some dirs =>
    rw [ne_eq, (turn_moves h hheading hasked hstep).2, reverses_iff]
    simp only [Option.mem_some_iff, forall_eq']

theorem course_kept_iff {start : SnakeGame} (hinit : snakeGameInit rolls = .ok (some start)) :
    (Run turnStep KeepsCourse start turns game ↔ Run turnStep FitsCourse start turns game) ∧
      ∀ first pairs game',
        snakeGameRun 0 start (first :: pairs.flatMap fun pair => [pair.1, pair.2]) = .ok (some game') →
        ∃ taken, taken <+: frameTurns first pairs ∧ Run turnStep (fun _ _ => True) start taken game' := by
  refine ⟨?_, fun first pairs game' hrun => run_of_gameTurns (snakeGameRun_eq first start pairs ▸ hrun)⟩
  refine Run.allowed_iff (P := fun game => Stored game ∧ (game.gameOver = false → Heading game))
    ⟨(stored_init hinit).1, fun _ => ?_⟩ ?_ ?_
  · rw [(snakeGenerateFood_some hinit).2]
    exact ⟨⟨19, 10⟩, _, rfl⟩
  · exact fun game turn game' hP hstep =>
      keepsCourse_iff hP.1 (hP.2 (turnStep_some hstep).1) hstep
  · intro game turn game' hP _ hstep
    have hheading := hP.2 (turnStep_some hstep).1
    refine ⟨stored_turn hP.1 hstep, fun hover => ?_⟩
    cases hasked : askedFor turn.keys with
    | none =>
      rw [(turn_quits hheading hasked hstep).1] at hover
      cases hover
    | some dirs => exact (turn_moves hP.1 hheading hasked hstep).1

theorem turnStep_update {game₁ : SnakeGame} (hover : game.gameOver = false)
    (hkeys : handleKeys game turn.keys = game₁) (hover₁ : game₁.gameOver = false)
    (hrun : snakeUpdateGame game₁ turn.rolls = .ok (some game')) :
    turnStep game turn = some game' := by
  simp only [turnStep, takeTurn, hover, hkeys, hover₁, hrun, Bool.false_eq_true, if_false]

theorem course_kept_turning_up : ∃ start game, snakeGameInit [(5, 5)] = .ok (some start) ∧
    Run turnStep KeepsCourse start [⟨[119], []⟩] game ∧ game.snake.body[0]? = some ⟨20, 9⟩ := by
  have hinit : snakeGameInit [(5, 5)] = .ok (some ⟨⟨5, 5⟩, initialSnake, false, 0⟩) := rfl
  have hfits : FitsCourse ⟨⟨5, 5⟩, initialSnake, false, 0⟩ ⟨[119], []⟩ := by
    rintro _ ⟨⟩
    rw [← reverses_iff]
    decide
  have hlaid : Laid (turned ⟨⟨5, 5⟩, initialSnake, false, 0⟩ .up) ⟨20, 10⟩ [⟨19, 10⟩] ⟨18, 10⟩
      (List.replicate (maxSnakeLength - 3) ⟨0, 0⟩) := ⟨rfl, rfl⟩
  have hupdate := hlaid.update []
  rw [if_neg (by decide), if_neg (by decide)] at hupdate
  have hstep := @turnStep_update ⟨⟨5, 5⟩, initialSnake, false, 0⟩ _ ⟨[119], []⟩ _ rfl rfl rfl hupdate
  have hrun : Run turnStep FitsCourse _ [⟨[119], []⟩] _ := .single hfits hstep
  exact ⟨_, _, hinit, (course_kept_iff hinit).1.mpr hrun, rfl⟩

theorem two_keys_reverse : ∃ start game, snakeGameInit [(5, 5)] = .ok (some start) ∧
    turnStep start ⟨[119, 97], []⟩ = some game ∧ ¬ KeepsCourse start ⟨[119, 97], []⟩ ∧
      snakeGameRun 0 start [⟨119, 97, []⟩] = .ok (some game) ∧ game.gameOver = true := by
  have hlaid : Laid (turned ⟨⟨5, 5⟩, initialSnake, false, 0⟩ .left) ⟨20, 10⟩ [⟨19, 10⟩] ⟨18, 10⟩
      (List.replicate (maxSnakeLength - 3) ⟨0, 0⟩) := ⟨rfl, rfl⟩
  have hupdate := hlaid.update []
  rw [if_pos (by decide)] at hupdate
  have hstep := @turnStep_update ⟨⟨5, 5⟩, initialSnake, false, 0⟩ _ ⟨[119, 97], []⟩ _ rfl rfl rfl hupdate
  have hkeys : handleKeys ⟨⟨5, 5⟩, initialSnake, false, 0⟩ [119, 97] =
      turned ⟨⟨5, 5⟩, initialSnake, false, 0⟩ .left := rfl
  refine ⟨⟨⟨5, 5⟩, initialSnake, false, 0⟩, _, rfl, hstep, fun hkeeps => hkeeps _ hstep rfl, ?_, rfl⟩
  simp only [snakeGameRun, hkeys, bind, Except.bind, hupdate]
  rfl

end Courses

end ZoraVM.Games
