import Mathlib.Data.List.Basic
import Mathlib.Data.List.Count
import Mathlib.Data.Nat.Init

namespace ZoraVM.Foundation

section Replacing

variable {α : Type} {width p : Nat} {piece line src : List α} {ps : List Nat} {c : α}

def replaceAt (width : Nat) (piece : List α) (p : Nat) (line : List α) : List α :=
  line.take p ++ piece ++ line.drop (p + width)

-- From the last place to the first, so that none of them moves.
def replaceEach (width : Nat) (piece : List α) (ps : List Nat) (line : List α) : List α :=
  ps.foldr (replaceAt width piece) line

@[simp] theorem replaceEach_nil (line : List α) : replaceEach width piece [] line = line := rfl

theorem replaceEach_cons (p : Nat) (ps : List Nat) (line : List α) :
    replaceEach width piece (p :: ps) line = replaceAt width piece p (replaceEach width piece ps line) :=
  rfl

theorem replaceAt_zero (line : List α) : replaceAt width piece 0 line = piece ++ line.drop width := by
  simp [replaceAt]

theorem replaceAt_cons (p : Nat) (c : α) (src : List α) :
    replaceAt width piece (p + 1) (c :: src) = c :: replaceAt width piece p src := by
  simp [replaceAt, Nat.add_right_comm p 1 width]

theorem replaceEach_map_succ (ps : List Nat) (c : α) (src : List α) :
    replaceEach width piece (ps.map (· + 1)) (c :: src) = c :: replaceEach width piece ps src := by
  induction ps with
  | nil => rfl
  | cons p ps ih => rw [List.map_cons, replaceEach_cons, ih, replaceAt_cons, replaceEach_cons]

theorem replaceEach_map_add (width : Nat) (piece : List α) (ps : List Nat) (front src : List α) :
    replaceEach width piece (ps.map (· + front.length)) (front ++ src) =
      front ++ replaceEach width piece ps src := by
  induction front with
  | nil => simp
  | cons c front ih =>
    have hmap : ps.map (· + (c :: front).length) = (ps.map (· + front.length)).map (· + 1) := by
      rw [List.map_map]
      exact List.map_congr_left fun p _ => (Nat.add_assoc p front.length 1).symm
    rw [hmap, List.cons_append, replaceEach_map_succ, ih]
    rfl

theorem length_replaceAt_ge (width : Nat) (piece : List α) (hp : p ≤ line.length) :
    p + piece.length ≤ (replaceAt width piece p line).length := by
  simp only [replaceAt, List.length_append, List.length_take]
  omega

theorem replaceAt_take {room : Nat} (hp : p ≤ line.length) (hroom : p + piece.length ≤ room) :
    ∃ behind, (replaceAt width piece p line).take room = line.take p ++ piece ++ behind := by
  have hlength : (line.take p ++ piece).length ≤ room := by
    rwa [List.length_append, List.length_take_of_le hp]
  rw [replaceAt, List.take_append, List.take_of_length_le hlength]
  exact ⟨_, rfl⟩

theorem mem_replaceAt {b : α} (h : b ∈ replaceAt width piece p line) : b ∈ line ∨ b ∈ piece := by
  simp only [replaceAt, List.mem_append] at h
  rcases h with (h | h) | h
  · exact .inl (List.mem_of_mem_take h)
  · exact .inr h
  · exact .inl (List.mem_of_mem_drop h)

theorem mem_replaceEach {b : α} (h : b ∈ replaceEach width piece ps line) : b ∈ line ∨ b ∈ piece := by
  induction ps with
  | nil => exact .inl h
  | cons p ps ih =>
    rcases mem_replaceAt h with h | h
    · exact ih h
    · exact .inr h

end Replacing

section Starts

variable {α : Type} {hit : List α → Bool} {width skip : Nat} {src : List α} {c : α}

-- Where something stands that `hit` sees at the start of what is left: wherever it does, and from
-- the left so that no two overlap.
def everyStart (hit : List α → Bool) : List α → List Nat
  | [] => []
  | c :: src =>
    if hit (c :: src) then 0 :: (everyStart hit src).map (· + 1) else (everyStart hit src).map (· + 1)

def startsBehind (hit : List α → Bool) (width : Nat) : Nat → List α → List Nat
  | _, [] => []
  | skip + 1, _ :: src => (startsBehind hit width skip src).map (· + 1)
  | 0, c :: src =>
    if hit (c :: src) then 0 :: (startsBehind hit width (width - 1) src).map (· + 1)
    else (startsBehind hit width 0 src).map (· + 1)

def starts (hit : List α → Bool) (width : Nat) (src : List α) : List Nat :=
  startsBehind hit width 0 src

@[simp] theorem starts_nil : starts hit width [] = [] := rfl

theorem startsBehind_eq (hit : List α → Bool) (width skip : Nat) (src : List α) :
    startsBehind hit width skip src = (starts hit width (src.drop skip)).map (· + skip) := by
  induction src generalizing skip with
  | nil => cases skip <;> rfl
  | cons c src ih =>
    cases skip with
    | zero => exact (List.map_id _).symm
    | succ skip =>
      rw [startsBehind, ih, List.drop_succ_cons, List.map_map]
      rfl

theorem starts_miss (h : hit (c :: src) = false) :
    starts hit width (c :: src) = (starts hit width src).map (· + 1) := by
  simp [starts, startsBehind, h]

theorem starts_hit (hwidth : 0 < width) (h : hit (c :: src) = true) :
    starts hit width (c :: src) = 0 :: (starts hit width ((c :: src).drop width)).map (· + width) := by
  obtain ⟨k, rfl⟩ : ∃ k, width = k + 1 := ⟨width - 1, by omega⟩
  rw [starts, startsBehind, if_pos h, startsBehind_eq, List.drop_succ_cons, List.map_map]
  rfl

theorem head?_starts (hit : List α → Bool) (width : Nat) (src : List α) :
    (starts hit width src).head? = (everyStart hit src).head? := by
  induction src with
  | nil => rfl
  | cons c src ih =>
    by_cases h : hit (c :: src) = true
    · simp [starts, startsBehind, everyStart, h]
    · rw [starts_miss (by simpa using h), everyStart, if_neg h, List.head?_map, List.head?_map, ih]

theorem everyStart_lt {p : Nat} (h : p ∈ everyStart hit src) : p < src.length := by
  induction src generalizing p with
  | nil => cases h
  | cons c src ih =>
    have hlater : ∀ {p}, p ∈ (everyStart hit src).map (· + 1) → p < (c :: src).length := by
      intro p hp
      obtain ⟨q, hq, rfl⟩ := List.mem_map.mp hp
      exact Nat.succ_lt_succ (ih hq)
    rw [everyStart] at h
    split at h
    · rcases List.mem_cons.mp h with rfl | h
      · exact Nat.succ_pos _
      · exact hlater h
    · exact hlater h

theorem starts_lt {p : Nat} (h : p ∈ startsBehind hit width skip src) : p < src.length := by
  induction src generalizing p skip with
  | nil => cases skip <;> cases h
  | cons c src ih =>
    have hlater : ∀ {p skip}, p ∈ (startsBehind hit width skip src).map (· + 1) →
        p < (c :: src).length := by
      intro p skip hp
      obtain ⟨q, hq, rfl⟩ := List.mem_map.mp hp
      exact Nat.succ_lt_succ (ih hq)
    cases skip with
    | succ skip => exact hlater h
    | zero =>
      rw [startsBehind] at h
      split at h
      · rcases List.mem_cons.mp h with rfl | h
        · exact Nat.succ_pos _
        · exact hlater h
      · exact hlater h

end Starts

section Fresh

variable {α : Type} [DecidableEq α] {hit : List α → Bool} {width p q : Nat} {piece line : List α} {b : α}

theorem idxOf_inserted {front behind : List α} (hfront : b ∉ front) (hb : b ∈ piece) :
    (front ++ piece ++ behind).idxOf b = front.length + piece.idxOf b := by
  rw [List.append_assoc, List.idxOf_append_of_notMem hfront, List.idxOf_append_of_mem hb]

theorem idxOf_replaceAt (hb : b ∈ piece) (hfresh : b ∉ line) (hp : p ≤ line.length) :
    (replaceAt width piece p line).idxOf b = p + piece.idxOf b := by
  have hfront : b ∉ line.take p := fun h => hfresh (List.mem_of_mem_take h)
  rw [replaceAt, idxOf_inserted hfront hb, List.length_take_of_le hp]

theorem idxOf_replaceAt_take (width : Nat) {room : Nat} (hb : b ∈ piece) (hfresh : b ∉ line)
    (hp : p ≤ line.length) (hroom : p + piece.length ≤ room) :
    ((replaceAt width piece p line).take room).idxOf b = p + piece.idxOf b := by
  have hfront : b ∉ line.take p := fun h => hfresh (List.mem_of_mem_take h)
  obtain ⟨behind, hbehind⟩ := replaceAt_take hp hroom
  rw [hbehind, idxOf_inserted hfront hb, List.length_take_of_le hp]

theorem count_replaceAt (hfresh : b ∉ line) :
    (replaceAt width piece p line).count b = piece.count b := by
  have hfront : b ∉ line.take p := fun h => hfresh (List.mem_of_mem_take h)
  have hbehind : b ∉ line.drop (p + width) := fun h => hfresh (List.mem_of_mem_drop h)
  rw [replaceAt, List.count_append, List.count_append, List.count_eq_zero.mpr hfront,
    List.count_eq_zero.mpr hbehind]
  omega

theorem count_replaceEach_starts (piece : List α) (hwidth : 0 < width)
    (hhit : ∀ src, hit src = true → width ≤ src.length) (hfresh : b ∉ line) :
    (replaceEach width piece (starts hit width line) line).count b =
      (starts hit width line).length * piece.count b := by
  induction hn : line.length using Nat.strong_induction_on generalizing line with
  | _ n ih =>
    cases line with
    | nil => simp
    | cons c src =>
      have hsrc : b ∉ src := fun h => hfresh (List.mem_cons_of_mem c h)
      by_cases h : hit (c :: src) = true
      · have hshorter : ((c :: src).drop width).length < n := by
          have hle := hhit _ h
          rw [List.length_drop, hn]
          omega
        have hbehind : b ∉ (c :: src).drop width := fun h => hfresh (List.mem_of_mem_drop h)
        have hrest := ih _ hshorter hbehind rfl
        have htake : ((c :: src).take width).length = width := List.length_take_of_le (hhit _ h)
        have hreplaced := replaceEach_map_add width piece (starts hit width ((c :: src).drop width))
          ((c :: src).take width) ((c :: src).drop width)
        rw [htake, List.take_append_drop] at hreplaced
        rw [starts_hit hwidth h, replaceEach_cons, hreplaced, replaceAt_zero,
          List.drop_left' htake, List.count_append, hrest, List.length_cons, List.length_map]
        rw [Nat.add_mul, Nat.one_mul, Nat.add_comm]
      · have hcb : c ≠ b := fun heq => hfresh (heq ▸ List.mem_cons_self)
        rw [starts_miss (by simpa using h), replaceEach_map_succ, List.count_cons_of_ne hcb,
          List.length_map]
        exact ih src.length (by simp [← hn]) hsrc rfl

end Fresh

end ZoraVM.Foundation
