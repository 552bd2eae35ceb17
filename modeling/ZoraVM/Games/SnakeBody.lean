import ZoraVM.Foundation.Run
import ZoraVM.Games.Snake

namespace ZoraVM.Games

open Foundation

section Worms

def Adjacent (p q : Position) : Prop := (p.x - q.x).natAbs + (p.y - q.y).natAbs = 1

instance (p q : Position) : Decidable (Adjacent p q) := inferInstanceAs (Decidable (_ = _))

structure Worm (segments : List Position) : Prop where
  onBoard : ∀ p ∈ segments, p.OnBoard
  chain : segments.IsChain Adjacent
  nodup : segments.Nodup

variable {segments rest : List Position} {p head last : Position}

theorem adjacent_moved (p : Position) (d : Direction) : Adjacent (p.moved d) p := by
  cases d <;> simp [Adjacent, Position.moved]

theorem worm_concat : Worm (segments ++ [p]) ↔
    Worm segments ∧ p.OnBoard ∧ p ∉ segments ∧ ∀ q ∈ segments.getLast?, Adjacent q p := by
  constructor
  · intro h
    obtain ⟨hchain, -, hlink⟩ := List.isChain_append.mp h.chain
    have hnodup := h.nodup
    rw [List.nodup_append] at hnodup
    refine ⟨⟨fun q hq => h.onBoard q (List.mem_append_left _ hq), hchain, hnodup.1⟩,
      h.onBoard p (List.mem_append_right _ (List.mem_singleton_self p)), ?_, ?_⟩
    · exact fun hp => hnodup.2.2 p hp p (List.mem_singleton_self p) rfl
    · exact fun q hq => hlink q hq p rfl
  · rintro ⟨h, hboard, hnew, hlink⟩
    refine ⟨fun q hq => ?_, ?_, ?_⟩
    · rcases List.mem_append.mp hq with hq | hq
      · exact h.onBoard q hq
      · exact List.mem_singleton.mp hq ▸ hboard
    · refine List.isChain_append.mpr ⟨h.chain, List.isChain_singleton p, fun q hq r hr => ?_⟩
      obtain rfl := Option.some.inj hr
      exact hlink q hq
    · rw [List.nodup_append]
      refine ⟨h.nodup, List.nodup_singleton p, fun q hq r hr hqr => ?_⟩
      rw [List.mem_singleton.mp hr] at hqr
      exact hnew (hqr ▸ hq)

theorem Worm.moved (h : Worm (head :: rest ++ [last])) (d : Direction)
    (hfree : ¬ Blocked (head.moved d) (head :: rest)) : Worm (head.moved d :: head :: rest) := by
  have hbehind := (worm_concat.mp h).1
  obtain ⟨hboard, hnew⟩ := not_or.mp hfree
  refine ⟨fun p hp => ?_, ?_, List.nodup_cons.mpr ⟨hnew, hbehind.nodup⟩⟩
  · rcases List.mem_cons.mp hp with rfl | hp
    · exact not_not.mp hboard
    · exact hbehind.onBoard p hp
  · exact List.isChain_cons_cons.mpr ⟨adjacent_moved head d, hbehind.chain⟩

end Worms

section Events

-- A key that snake_game_run handles, or a call of snake_update_game with the values rand gives then.
inductive GameEvent where
  | key (key : Int)
  | update (rolls : List (Nat × Nat))
  deriving DecidableEq, Repr

def gameEvent (game : SnakeGame) : GameEvent → Outcome (Option SnakeGame)
  | .key key => .ok (some (handleKey game key))
  | .update rolls => snakeUpdateGame game rolls

def eventStep (game : SnakeGame) (event : GameEvent) : Option SnakeGame :=
  match gameEvent game event with
  | .ok game => game
  | .error _ => none

def Snake.segments (snake : Snake) : List Position := snake.body.take snake.length

def Sound (game : SnakeGame) : Prop :=
  game.snake.alive = true → game.snake.length ≤ maxSnakeLength ∧ Worm game.snake.segments

def KeepsBody (game : SnakeGame) (event : GameEvent) : Prop :=
  ∀ game', eventStep game event = some game' → Sound game'

-- The segment that a meal adds is where memset has left it, at the corner.
def FitsBody (game : SnakeGame) : GameEvent → Prop
  | .key _ => True
  | .update _ => game.snake.alive = true → ∀ head ∈ game.snake.segments.head?,
      head.moved game.snake.direction = game.food → ¬ Blocked game.food game.snake.segments.dropLast →
      game.snake.length < maxSnakeLength ∧ ⟨0, 0⟩ ∉ game.food :: game.snake.segments.dropLast ∧
        ∀ p ∈ game.snake.segments.dropLast.getLast?, Adjacent p ⟨0, 0⟩

end Events

section Storage

variable {game game' : SnakeGame} {rolls : List (Nat × Nat)} {rest behind : List Position}
variable {head last : Position} {event : GameEvent}

structure Stored (game : SnakeGame) : Prop where
  size : game.snake.body.length = maxSnakeLength
  two : 2 ≤ game.snake.length
  within : game.snake.length ≤ maxSnakeLength
  blank : ∀ p ∈ game.snake.body.drop game.snake.length, p = ⟨0, 0⟩

theorem Stored.laid (h : Stored game) : ∃ head rest last behind, Laid game head rest last behind ∧
    (∀ p ∈ behind, p = ⟨0, 0⟩) ∧ rest.length + behind.length + 2 = maxSnakeLength := by
  have hlength : game.snake.segments.length = game.snake.length := by
    rw [Snake.segments, List.length_take, h.size, Nat.min_eq_left h.within]
  have hbody : game.snake.segments ++ game.snake.body.drop game.snake.length = game.snake.body :=
    List.take_append_drop _ _
  have hsize := h.size
  have htwo := h.two
  obtain hnil | ⟨front, last, hlast⟩ := List.eq_nil_or_concat game.snake.segments
  · rw [hnil, List.length_nil] at hlength
    omega
  · rw [List.concat_eq_append] at hlast
    rw [hlast, List.length_append, List.length_singleton] at hlength
    cases front with
    | nil =>
      rw [List.length_nil] at hlength
      omega
    | cons head rest =>
      rw [hlast, List.append_assoc, List.singleton_append] at hbody
      rw [List.length_cons] at hlength
      refine ⟨head, rest, last, _, ⟨hbody.symm, hlength.symm⟩, h.blank, ?_⟩
      rw [← hbody] at hsize
      simp only [List.length_append, List.length_cons] at hsize
      omega

theorem segments_eq {snake : Snake} {segments : List Position}
    (hbody : snake.body = segments ++ behind) (hlength : snake.length = segments.length) :
    snake.segments = segments := by
  rw [Snake.segments, hbody, hlength, List.take_left]

theorem Laid.segments (h : Laid game head rest last behind) :
    game.snake.segments = head :: rest ++ [last] := by
  refine @segments_eq behind game.snake _ ?_ ?_
  · rw [h.body, ← List.append_cons]
  · rw [h.length, List.length_append]
    rfl

theorem segments_movedOn (h : Laid game head rest last behind) :
    (movedOn game head rest behind).snake.segments =
      head.moved game.snake.direction :: head :: rest :=
  segments_eq rfl h.length

theorem segments_grown {p : Position} (h : Laid game head rest last (p :: behind)) :
    (grown (movedOn game head rest (p :: behind))).snake.segments =
      head.moved game.snake.direction :: head :: rest ++ [p] := by
  refine @segments_eq behind _ _ ?_ ?_
  · simp only [grown, movedOn]
    rw [← List.append_cons]
  · simp [grown, movedOn, h.length]

theorem Laid.grown_some (h : Laid game head rest last behind)
    (hfood : snakeGenerateFood (grown (movedOn game head rest behind)) rolls = .ok (some game')) :
    behind ≠ [] ∧ game' = { grown (movedOn game head rest behind) with food := game'.food } := by
  obtain ⟨hread, heq⟩ := snakeGenerateFood_some hfood
  refine ⟨fun hnil => ?_, heq⟩
  have hwithin := within_of_segmentAt hread (Nat.succ_pos _)
  simp only [grown, movedOn, h.length, hnil, List.length_cons, List.append_nil] at hwithin
  omega

end Storage

section Steps

variable {game game' : SnakeGame} {rolls : List (Nat × Nat)} {rest behind : List Position}
variable {head last : Position} {event : GameEvent}

theorem handleKey_eq (game : SnakeGame) (key : Int) : ∃ direction gameOver,
    handleKey game key =
      { game with snake := { game.snake with direction := direction }, gameOver := gameOver } := by
  rw [handleKey]
  split
  · rw [steer]
    split
    · exact ⟨_, _, rfl⟩
    · exact ⟨_, _, rfl⟩
  · exact ⟨_, _, rfl⟩
  · exact ⟨_, _, rfl⟩

theorem Stored.update (h : Stored game) (hrun : snakeUpdateGame game rolls = .ok (some game')) :
    Stored game' := by
  obtain ⟨head, rest, last, behind, hlaid, hblank, hsize⟩ := h.laid
  have hmoved : Stored (movedOn game head rest behind) := by
    refine ⟨?_, h.two, h.within, ?_⟩
    · simp only [movedOn, List.length_cons, List.length_append]
      omega
    · have hdrop : (movedOn game head rest behind).snake.body.drop game.snake.length = behind := by
        rw [hlaid.length]
        exact List.drop_left
      intro p hp
      exact hblank p (hdrop ▸ hp)
  rw [hlaid.update] at hrun
  split at hrun
  · obtain rfl := Option.some.inj (Except.ok.inj hrun)
    exact ⟨hmoved.size, hmoved.two, hmoved.within, hmoved.blank⟩
  · split at hrun
    · obtain ⟨hroom, heq⟩ := hlaid.grown_some hrun
      rw [heq]
      have hpos := List.length_pos_iff.mpr hroom
      have hlength := hlaid.length
      refine ⟨hmoved.size, Nat.le_succ_of_le h.two, ?_, fun p hp => hmoved.blank p ?_⟩
      · simp only [grown, movedOn]
        omega
      · exact List.mem_of_mem_drop (by simpa [grown, List.drop_drop] using hp)
    · obtain rfl := Option.some.inj (Except.ok.inj hrun)
      exact hmoved

theorem Laid.fits_iff (h : Laid game head rest last behind) (rolls : List (Nat × Nat)) :
    FitsBody game (.update rolls) ↔ (game.snake.alive = true →
      head.moved game.snake.direction = game.food → ¬ Blocked game.food (head :: rest) →
      game.snake.length < maxSnakeLength ∧ ⟨0, 0⟩ ∉ game.food :: head :: rest ∧
        ∀ p ∈ (head :: rest).getLast?, Adjacent p ⟨0, 0⟩) := by
  have hdrop : game.snake.segments.dropLast = head :: rest := by
    rw [h.segments, List.dropLast_concat]
  have hhead : game.snake.segments.head? = some head := by
    rw [h.segments]
    rfl
  simp only [FitsBody, hdrop, hhead, Option.mem_some_iff, forall_eq']

theorem Laid.worm_moved (h : Laid game head rest last behind) (hsound : Sound game)
    (hfree : ¬ Blocked (head.moved game.snake.direction) (head :: rest))
    (ha : game.snake.alive = true) : Worm (head.moved game.snake.direction :: head :: rest) :=
  (h.segments ▸ (hsound ha).2 : Worm (head :: rest ++ [last])).moved _ hfree

theorem Laid.sound_grown_iff {p : Position} (h : Laid game head rest last (p :: behind))
    (hsize : rest.length + (p :: behind).length + 2 = maxSnakeLength)
    (hgrown : game' = { grown (movedOn game head rest (p :: behind)) with food := game'.food }) :
    game.snake.length < maxSnakeLength ∧ (Sound game' ↔ (game.snake.alive = true →
      Worm (head.moved game.snake.direction :: head :: rest ++ [p]))) := by
  have hlength : game.snake.length < maxSnakeLength := by
    rw [h.length, ← hsize, List.length_cons]
    omega
  have hroom : game.snake.length + 1 ≤ maxSnakeLength := hlength
  refine ⟨hlength, ?_⟩
  rw [hgrown, Sound, ← segments_grown h]
  exact forall_congr' fun _ => ⟨fun hs => hs.2, fun hworm => ⟨hroom, hworm⟩⟩

theorem sound_update (h : Stored game) (hsound : Sound game)
    (hrun : snakeUpdateGame game rolls = .ok (some game')) :
    Sound game' ↔ FitsBody game (.update rolls) := by
  obtain ⟨head, rest, last, behind, hlaid, hblank, hsize⟩ := h.laid
  rw [hlaid.fits_iff]
  rw [hlaid.update] at hrun
  split at hrun
  · rename_i hblocked
    obtain rfl := Option.some.inj (Except.ok.inj hrun)
    refine iff_of_true (fun ha => ?_) fun _ heq hfree => ?_
    · cases ha
    · exact absurd (heq ▸ hblocked) hfree
  · rename_i hfree
    have hworm := hlaid.worm_moved hsound hfree
    split at hrun
    · rename_i heq
      obtain ⟨hroom, hgrown⟩ := hlaid.grown_some hrun
      cases behind with
      | nil => exact absurd rfl hroom
      | cons p behind =>
        obtain rfl := hblank p List.mem_cons_self
        obtain ⟨hlength, hsound'⟩ := hlaid.sound_grown_iff hsize hgrown
        have hcorner : Position.OnBoard ⟨0, 0⟩ := by decide
        have hlast : (head.moved game.snake.direction :: head :: rest).getLast? =
            (head :: rest).getLast? := List.getLast?_cons_cons
        rw [hsound', worm_concat]
        refine imp_congr_right fun ha => ?_
        rw [heq] at hworm hfree hlast ⊢
        simp only [hworm ha, hcorner, hfree, hlast, hlength, true_and, not_false_eq_true,
          forall_true_left]
    · rename_i hne
      obtain rfl := Option.some.inj (Except.ok.inj hrun)
      refine iff_of_true (fun ha => ?_) fun _ heq => absurd heq hne
      rw [segments_movedOn hlaid]
      exact ⟨h.within, hworm ha⟩

theorem eventStep_some (h : eventStep game event = some game') :
    gameEvent game event = .ok (some game') := by
  rw [eventStep] at h
  split at h
  · rename_i hrun
    rw [hrun, h]
  · cases h

theorem eventStep_update (h : snakeUpdateGame game rolls = .ok (some game')) :
    eventStep game (.update rolls) = some game' := by
  rw [eventStep, gameEvent, h]

theorem Stored.step (h : Stored game) (hstep : eventStep game event = some game') :
    Stored game' := by
  have hrun := eventStep_some hstep
  cases event with
  | key key =>
    obtain ⟨direction, gameOver, heq⟩ := handleKey_eq game key
    rw [gameEvent, heq] at hrun
    obtain rfl := Option.some.inj (Except.ok.inj hrun)
    exact ⟨h.size, h.two, h.within, h.blank⟩
  | update rolls => exact h.update hrun

theorem sound_event (h : Stored game) (hsound : Sound game)
    (hstep : eventStep game event = some game') : Sound game' ↔ FitsBody game event := by
  have hrun := eventStep_some hstep
  cases event with
  | key key =>
    obtain ⟨direction, gameOver, heq⟩ := handleKey_eq game key
    rw [gameEvent, heq] at hrun
    obtain rfl := Option.some.inj (Except.ok.inj hrun)
    exact iff_of_true hsound trivial
  | update rolls => exact sound_update h hsound hrun

theorem FitsBody.ne_error (h : Stored game) (ha : game.snake.alive = true)
    (hfits : FitsBody game event) (fault : Fault) : gameEvent game event ≠ .error fault := by
  cases event with
  | key key =>
    intro hrun
    cases hrun
  | update rolls =>
    obtain ⟨head, rest, last, behind, hlaid, -, hsize⟩ := h.laid
    have hdrop : game.snake.segments.dropLast = head :: rest := by
      rw [hlaid.segments, List.dropLast_concat]
    have hhead : head ∈ game.snake.segments.head? := by
      rw [hlaid.segments]
      rfl
    rw [gameEvent, hlaid.update]
    split
    · intro hrun
      cases hrun
    · rename_i hfree
      split
      · rename_i heq
        obtain ⟨hroom, -, -⟩ := hfits ha head hhead heq (by rw [hdrop, ← heq]; exact hfree)
        have hlength := hlaid.length
        refine snakeGenerateFood_ne_error ?_ rolls fault
        simp only [grown, movedOn, List.length_append, List.length_cons]
        omega
      · intro hrun
        cases hrun

end Steps

section Runs

variable {start game : SnakeGame} {rolls : List (Nat × Nat)} {events : List GameEvent}

theorem stored_init (h : snakeGameInit rolls = .ok (some start)) : Stored start ∧ Sound start := by
  have hsnake : start.snake = initialSnake := by rw [(snakeGenerateFood_some h).2]
  have hsegments : initialSnake.segments = [⟨20, 10⟩, ⟨19, 10⟩, ⟨18, 10⟩] := rfl
  constructor
  · refine ⟨?_, ?_, ?_, ?_⟩
    all_goals rw [hsnake]
    · exact congrArg (· + 3) List.length_replicate
    · decide
    · decide
    · exact fun p hp => List.eq_of_mem_replicate hp
  · rw [Sound, hsnake, hsegments]
    exact fun _ => ⟨by decide, ⟨by decide, by decide, by decide⟩⟩

theorem laid_initial (food : Position) : Laid ⟨food, initialSnake, false, 0⟩ ⟨20, 10⟩ [⟨19, 10⟩] ⟨18, 10⟩
    (List.replicate (maxSnakeLength - 3) ⟨0, 0⟩) :=
  ⟨rfl, rfl⟩

theorem body_kept_iff (h : snakeGameInit rolls = .ok (some start)) :
    (Run eventStep KeepsBody start events game ↔ Run eventStep FitsBody start events game) ∧
      (Run eventStep FitsBody start events game → Sound game ∧ ∀ event, game.snake.alive = true →
        FitsBody game event → ∀ fault, gameEvent game event ≠ .error fault) := by
  have h₀ := stored_init h
  constructor
  · refine Run.allowed_iff (P := fun game => Stored game ∧ Sound game) h₀ ?_ ?_
    · intro game event game' hP hstep
      rw [← sound_event hP.1 hP.2 hstep]
      exact ⟨fun hkeeps => hkeeps _ hstep, fun hsound _ hstep' => by
        obtain rfl := Option.some.inj (hstep.symm.trans hstep')
        exact hsound⟩
    · exact fun game event game' hP hkeeps hstep => ⟨hP.1.step hstep, hkeeps _ hstep⟩
  · intro hrun
    have hP : Stored game ∧ Sound game := by
      refine hrun.invariant (P := fun game => Stored game ∧ Sound game) h₀ ?_
      exact fun _ _ _ hP hfits hstep =>
        ⟨hP.1.step hstep, (sound_event hP.1 hP.2 hstep).mpr hfits⟩
    exact ⟨hP.2, fun event ha hfits fault => hfits.ne_error hP.1 ha fault⟩

theorem body_kept_turning_up : ∃ start game, snakeGameInit [(5, 5)] = .ok (some start) ∧
    exec eventStep start [.key 119, .update []] = some game ∧ Sound game := by
  have hinit : snakeGameInit [(5, 5)] = .ok (some ⟨⟨5, 5⟩, initialSnake, false, 0⟩) := rfl
  obtain ⟨turned, hkey, hlaid, hdirection, hfood⟩ : ∃ turned,
      eventStep ⟨⟨5, 5⟩, initialSnake, false, 0⟩ (.key 119) = some turned ∧
        Laid turned ⟨20, 10⟩ [⟨19, 10⟩] ⟨18, 10⟩ (List.replicate (maxSnakeLength - 3) ⟨0, 0⟩) ∧
          turned.snake.direction = .up ∧ turned.food = ⟨5, 5⟩ :=
    ⟨_, rfl, ⟨rfl, rfl⟩, rfl, rfl⟩
  have hupdate := hlaid.update []
  rw [hdirection, hfood, if_neg (by decide), if_neg (by decide)] at hupdate
  have hmove := eventStep_update hupdate
  have hfirst : Run eventStep FitsBody _ [.key 119] turned := .single trivial hkey
  refine ⟨_, _, hinit, ?_, ((body_kept_iff hinit).2 (hfirst.call ?_ hmove)).1⟩
  · rw [exec, hkey, Option.bind_some, exec, hmove]
    rfl
  · intro _ head hhead heq
    rw [hlaid.segments] at hhead
    obtain rfl := Option.some.inj hhead
    rw [hdirection, hfood] at heq
    exact absurd heq (by decide)

theorem first_meal_breaks_body : ∃ start game,
    snakeGameInit [(21, 10)] = .ok (some start) ∧
      exec eventStep start [.update [(5, 5)]] = some game ∧ game.snake.alive = true ∧
        game.snake.segments = [⟨21, 10⟩, ⟨20, 10⟩, ⟨19, 10⟩, ⟨0, 0⟩] ∧ ¬ Sound game := by
  have hmeal := (laid_initial ⟨21, 10⟩).update [(5, 5)]
  rw [if_neg (by decide), if_pos (by decide)] at hmeal
  obtain ⟨game, hgame⟩ : ∃ game, snakeUpdateGame ⟨⟨21, 10⟩, initialSnake, false, 0⟩ [(5, 5)] =
      .ok (some game) := ⟨_, hmeal⟩
  have hsnake : game.snake = (grown (movedOn ⟨⟨21, 10⟩, initialSnake, false, 0⟩ ⟨20, 10⟩ [⟨19, 10⟩]
      (List.replicate (maxSnakeLength - 3) ⟨0, 0⟩))).snake := by
    rw [(snakeGenerateFood_some (hmeal.symm.trans hgame)).2]
  have hsegments : game.snake.segments = [⟨21, 10⟩, ⟨20, 10⟩, ⟨19, 10⟩, ⟨0, 0⟩] := by
    rw [hsnake]
    rfl
  have halive : game.snake.alive = true := by
    rw [hsnake]
    rfl
  refine ⟨⟨⟨21, 10⟩, initialSnake, false, 0⟩, game, rfl, ?_, halive, hsegments, fun hsound => ?_⟩
  · rw [exec, eventStep_update hgame]
    rfl
  · have hchain := (hsound halive).2.chain
    rw [hsegments] at hchain
    exact absurd hchain (by decide)

end Runs

end ZoraVM.Games
