import ZoraVM.Foundation.Shifts

namespace ZoraVM.Games

open Foundation

section Source

def boardWidth : Nat := 40

def boardHeight : Nat := 20

def maxSnakeLength : Nat := 400

structure Position where
  x : Int
  y : Int
  deriving DecidableEq, Repr

inductive Direction where
  | up
  | right
  | down
  | left
  deriving DecidableEq, Repr

structure Snake where
  body : List Position
  length : Nat
  direction : Direction
  score : Int
  alive : Bool
  deriving DecidableEq, Repr

structure SnakeGame where
  food : Position
  snake : Snake
  gameOver : Bool
  highScore : Int
  deriving DecidableEq, Repr

def segmentAt (body : List Position) (p : Position) (i : Nat) : Nat → Outcome Bool
  | 0 => .ok false
  | left + 1 => do
    let segment ← load body i
    if segment = p then .ok true else segmentAt body p (i + 1) left

-- rolls: what rand gives, two values for each turn of the loop; `none` where they run out first.
def snakeGenerateFood (game : SnakeGame) : List (Nat × Nat) → Outcome (Option SnakeGame)
  | [] => .ok none
  | (a, b) :: rolls => do
    let food : Position := ⟨(a % boardWidth : Nat), (b % boardHeight : Nat)⟩
    if ← segmentAt game.snake.body food 0 game.snake.length then snakeGenerateFood game rolls
    else .ok (some { game with food := food })

-- What memset leaves is 0, also in the segments beyond the third.
def initialSnake : Snake where
  body := ⟨20, 10⟩ :: ⟨19, 10⟩ :: ⟨18, 10⟩ :: List.replicate (maxSnakeLength - 3) ⟨0, 0⟩
  length := 3
  direction := .right
  score := 0
  alive := true

def snakeGameInit (rolls : List (Nat × Nat)) : Outcome (Option SnakeGame) :=
  snakeGenerateFood { food := ⟨0, 0⟩, snake := initialSnake, gameOver := false, highScore := 0 } rolls

def Position.moved (p : Position) : Direction → Position
  | .up => { p with y := p.y - 1 }
  | .right => { p with x := p.x + 1 }
  | .down => { p with y := p.y + 1 }
  | .left => { p with x := p.x - 1 }

def snakeMoveSnake (game : SnakeGame) : Outcome SnakeGame := do
  let body ← shiftUp 0 (game.snake.length - 1) game.snake.body
  let head ← load body 0
  let body ← store body 0 (head.moved game.snake.direction)
  .ok { game with snake := { game.snake with body := body } }

def Position.OnBoard (p : Position) : Prop :=
  0 ≤ p.x ∧ p.x < boardWidth ∧ 0 ≤ p.y ∧ p.y < boardHeight

instance (p : Position) : Decidable p.OnBoard := inferInstanceAs (Decidable (_ ∧ _ ∧ _ ∧ _))

def snakeCheckCollision (game : SnakeGame) : Outcome Bool := do
  let head ← load game.snake.body 0
  if head.OnBoard then segmentAt game.snake.body head 1 (game.snake.length - 1) else .ok true

def grown (game : SnakeGame) : SnakeGame :=
  let score := game.snake.score + 10
  { game with
    snake := { game.snake with length := game.snake.length + 1, score := score }
    highScore := if game.highScore < score then score else game.highScore }

def died (game : SnakeGame) : SnakeGame :=
  { game with snake := { game.snake with alive := false }, gameOver := true }

def snakeUpdateGame (game : SnakeGame) (rolls : List (Nat × Nat)) : Outcome (Option SnakeGame) := do
  let game ← snakeMoveSnake game
  if ← snakeCheckCollision game then
    .ok (some (died game))
  else do
    let head ← load game.snake.body 0
    if head = game.food then snakeGenerateFood (grown game) rolls else .ok (some game)

end Source

section Keys

def tolower (key : Int) : Int := if 65 ≤ key ∧ key ≤ 90 then key + 32 else key

def Direction.opposite : Direction → Direction
  | .up => .down
  | .right => .left
  | .down => .up
  | .left => .right

def steer (game : SnakeGame) (direction : Direction) : SnakeGame :=
  if game.snake.direction ≠ direction.opposite then
    { game with snake := { game.snake with direction := direction } }
  else game

inductive Key where
  | steer (direction : Direction)
  | quit
  | other
  deriving DecidableEq, Repr

-- w, d, s, a; q and escape.
def keyOf (key : Int) : Key :=
  match tolower key with
  | 119 => .steer .up
  | 100 => .steer .right
  | 115 => .steer .down
  | 97 => .steer .left
  | 113 => .quit
  | 27 => .quit
  | _ => .other

-- What snake_game_run does with a key; 0 is no key.
def handleKey (game : SnakeGame) (key : Int) : SnakeGame :=
  match keyOf key with
  | .steer direction => steer game direction
  | .quit => { game with gameOver := true }
  | .other => game

def handleKeys : SnakeGame → List Int → SnakeGame
  | game, [] => game
  | game, key :: keys =>
    let game := handleKey game key
    if game.gameOver then game else handleKeys game keys

-- One turn of snake_game_run's loop: the keys read before each of its two sleeps.
structure Frame where
  first : Int
  second : Int
  rolls : List (Nat × Nat)
  deriving DecidableEq, Repr

def snakeGameRun : Nat → SnakeGame → List Frame → Outcome (Option SnakeGame)
  | _, game, [] => .ok (some game)
  | frameCounter, game, frame :: frames =>
    if game.gameOver then .ok (some game)
    else
      let game := handleKeys game [frame.first, frame.second]
      if game.gameOver then .ok (some game)
      else if frameCounter % 2 = 0 then do
        match ← snakeUpdateGame game frame.rolls with
        | none => .ok none
        | some game => snakeGameRun (frameCounter + 1) game frames
      else snakeGameRun (frameCounter + 1) game frames

end Keys

section Segments

variable {body front mid behind : List Position} {p food head neck last : Position}
variable {game game' : SnakeGame} {rolls : List (Nat × Nat)} {rest : List Position}

theorem segmentAt_eq (front mid behind : List Position) (p : Position) :
    segmentAt (front ++ mid ++ behind) p front.length mid.length = .ok (decide (p ∈ mid)) := by
  induction mid generalizing front with
  | nil => rfl
  | cons segment mid ih =>
    have hload : load (front ++ segment :: mid ++ behind) front.length = .ok segment := by
      simpa using load_middle front (mid ++ behind) segment
    have hrest := ih (front ++ [segment])
    simp only [List.append_assoc, List.singleton_append, List.length_append, List.length_singleton]
      at hrest
    simp only [List.length_cons, segmentAt, hload, bind, Except.bind]
    by_cases heq : segment = p
    · simp [heq]
    · rw [if_neg heq]
      simpa [Ne.symm heq] using hrest

theorem within_of_segmentAt {left i : Nat} (h : segmentAt body p i left = .ok false) (hl : 0 < left) :
    i + left ≤ body.length := by
  induction left generalizing i with
  | zero => exact absurd hl (Nat.lt_irrefl 0)
  | succ left ih =>
    obtain ⟨segment, hload, hrest⟩ := Outcome.bind_eq_ok.mp h
    have hi : i < body.length := by
      by_contra hge
      rw [load, List.getElem?_eq_none (Nat.le_of_not_lt hge)] at hload
      cases hload
    split at hrest
    · cases hrest
    · cases left with
      | zero => exact hi
      | succ left =>
        have := ih hrest (Nat.succ_pos _)
        omega

theorem snakeGenerateFood_some (h : snakeGenerateFood game rolls = .ok (some game')) :
    segmentAt game.snake.body game'.food 0 game.snake.length = .ok false ∧
      game' = { game with food := game'.food } := by
  induction rolls with
  | nil => cases h
  | cons roll rolls ih =>
    obtain ⟨found, hfound, hrest⟩ := Outcome.bind_eq_ok.mp h
    cases found with
    | true => exact ih hrest
    | false =>
      obtain rfl := Option.some.inj (Except.ok.inj hrest)
      exact ⟨hfound, rfl⟩

theorem snakeGenerateFood_ne_error (hbody : game.snake.length ≤ game.snake.body.length)
    (rolls : List (Nat × Nat)) (fault : Fault) : snakeGenerateFood game rolls ≠ .error fault := by
  induction rolls with
  | nil => nofun
  | cons roll rolls ih =>
    have hread := segmentAt_eq [] (game.snake.body.take game.snake.length)
      (game.snake.body.drop game.snake.length)
      ⟨(roll.1 % boardWidth : Nat), (roll.2 % boardHeight : Nat)⟩
    rw [List.nil_append, List.take_append_drop, List.length_take, Nat.min_eq_left hbody,
      List.length_nil] at hread
    simp only [snakeGenerateFood, hread, bind, Except.bind]
    split
    · exact ih
    · nofun

end Segments

section Updates

variable {game game' : SnakeGame} {rolls : List (Nat × Nat)} {rest behind : List Position}
variable {head last : Position}

structure Laid (game : SnakeGame) (head : Position) (rest : List Position) (last : Position)
    (behind : List Position) : Prop where
  body : game.snake.body = head :: rest ++ last :: behind
  length : game.snake.length = rest.length + 2

def movedOn (game : SnakeGame) (head : Position) (rest behind : List Position) : SnakeGame :=
  { game with
    snake :=
      { game.snake with body := head.moved game.snake.direction :: head :: rest ++ behind } }

def Blocked (p : Position) (body : List Position) : Prop := ¬ p.OnBoard ∨ p ∈ body

instance (p : Position) (body : List Position) : Decidable (Blocked p body) :=
  inferInstanceAs (Decidable (_ ∨ _))

theorem Laid.move (h : Laid game head rest last behind) :
    snakeMoveSnake game = .ok (movedOn game head rest behind) := by
  have hshift := shiftUp_doubled [] rest behind last head
  simp only [List.nil_append, List.length_nil, List.cons_append] at hshift
  simp only [snakeMoveSnake, h.body, h.length, Nat.reduceSubDiff, hshift, bind, Except.bind,
    List.cons_append, load, List.getElem?_cons_zero, store, List.length_cons, Nat.succ_pos, if_true,
    List.set_cons_zero, movedOn]

theorem Laid.collision (h : Laid game head rest last behind) :
    snakeCheckCollision (movedOn game head rest behind) =
      .ok (decide (Blocked (head.moved game.snake.direction) (head :: rest))) := by
  have hread := segmentAt_eq [head.moved game.snake.direction] (head :: rest) behind
    (head.moved game.snake.direction)
  simp only [List.singleton_append, List.length_cons] at hread
  simp only [snakeCheckCollision, movedOn, h.length, bind, Except.bind, List.cons_append, load,
    List.getElem?_cons_zero, Blocked]
  by_cases hboard : (head.moved game.snake.direction).OnBoard
  · simp only [hboard, if_true, not_true, false_or]
    exact hread
  · simp [hboard]

theorem Laid.update (h : Laid game head rest last behind) (rolls : List (Nat × Nat)) :
    snakeUpdateGame game rolls =
      if Blocked (head.moved game.snake.direction) (head :: rest) then
        .ok (some (died (movedOn game head rest behind)))
      else if head.moved game.snake.direction = game.food then
        snakeGenerateFood (grown (movedOn game head rest behind)) rolls
      else .ok (some (movedOn game head rest behind)) := by
  have hload : load (movedOn game head rest behind).snake.body 0 =
      .ok (head.moved game.snake.direction) := rfl
  simp only [snakeUpdateGame, h.move, bind, Except.bind, h.collision, hload, decide_eq_true_eq]
  rfl

end Updates

end ZoraVM.Games
