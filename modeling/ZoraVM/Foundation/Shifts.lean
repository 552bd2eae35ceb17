import ZoraVM.Foundation.Heap

namespace ZoraVM.Foundation

section Shifts

variable {α : Type}

def load (cells : List α) (i : Nat) : Outcome α :=
  match cells[i]? with
  | some x => .ok x
  | none => .error .bufferOverflow

def store (cells : List α) (i : Nat) (x : α) : Outcome (List α) :=
  if i < cells.length then .ok (cells.set i x) else .error .bufferOverflow

-- for (i = low + count - 1; i >= low; i--) cells[i + 1] = cells[i]
def shiftUp (low : Nat) : Nat → List α → Outcome (List α)
  | 0, cells => .ok cells
  | count + 1, cells => do
    let x ← load cells (low + count)
    shiftUp low count (← store cells (low + count + 1) x)

-- for (i = low; i < low + count; i++) cells[i] = cells[i + 1]
def shiftDown (low : Nat) : Nat → List α → Outcome (List α)
  | 0, cells => .ok cells
  | count + 1, cells => do
    let x ← load cells (low + 1)
    shiftDown (low + 1) count (← store cells low x)

variable (front moved behind : List α) (x y : α)

theorem load_middle : load (front ++ x :: behind) front.length = .ok x := by
  rw [load, List.getElem?_append_right (Nat.le_refl _), Nat.sub_self]
  rfl

theorem store_middle :
    store (front ++ x :: behind) front.length y = .ok (front ++ y :: behind) := by
  rw [store, if_pos (by simp), List.set_append_right _ _ (Nat.le_refl _), Nat.sub_self]
  rfl

theorem shiftUp_store :
    (shiftUp front.length moved.length (front ++ moved ++ x :: behind) >>= fun cells =>
      store cells front.length y) = .ok (front ++ y :: moved ++ behind) := by
  induction moved using List.reverseRecOn generalizing x behind with
  | nil =>
    rw [List.append_nil, List.append_assoc]
    exact store_middle front behind x y
  | append_singleton moved z ih =>
    have hload : load (front ++ (moved ++ [z]) ++ x :: behind) (front.length + moved.length) =
        .ok z := by
      simpa using load_middle (front ++ moved) (x :: behind) z
    have hstore : store (front ++ (moved ++ [z]) ++ x :: behind) (front.length + moved.length + 1) z =
        .ok (front ++ moved ++ z :: z :: behind) := by
      simpa [Nat.add_assoc] using store_middle (front ++ moved ++ [z]) behind x z
    rw [List.length_append, List.length_singleton, shiftUp, hload]
    simp only [bind, Except.bind, hstore]
    simpa [bind, Except.bind] using ih (z :: behind) z

theorem shiftUp_doubled :
    shiftUp front.length (moved.length + 1) (front ++ y :: moved ++ x :: behind) =
      .ok (front ++ y :: y :: moved ++ behind) := by
  induction moved using List.reverseRecOn generalizing x behind with
  | nil =>
    have hload : load (front ++ y :: x :: behind) front.length = .ok y := load_middle _ _ _
    have hstore : store (front ++ y :: x :: behind) (front.length + 1) y =
        .ok (front ++ y :: y :: behind) := by
      simpa using store_middle (front ++ [y]) behind x y
    simp only [List.length_nil, List.append_assoc, List.cons_append, List.nil_append, shiftUp,
      Nat.add_zero, hload, bind, Except.bind, hstore]
  | append_singleton moved z ih =>
    have hload : load (front ++ y :: (moved ++ [z]) ++ x :: behind)
        (front.length + (moved.length + 1)) = .ok z := by
      simpa [Nat.add_assoc] using load_middle (front ++ y :: moved) (x :: behind) z
    have hstore : store (front ++ y :: (moved ++ [z]) ++ x :: behind)
        (front.length + (moved.length + 1) + 1) z = .ok (front ++ y :: moved ++ z :: z :: behind) := by
      simpa [Nat.add_assoc] using store_middle (front ++ y :: moved ++ [z]) behind x z
    rw [List.length_append, List.length_singleton, shiftUp, hload]
    simp only [bind, Except.bind, hstore]
    simpa using ih (z :: behind) z

theorem shiftDown_moved : ∃ last,
    shiftDown front.length moved.length (front ++ x :: moved ++ behind) =
      .ok (front ++ moved ++ last :: behind) := by
  induction moved generalizing front x with
  | nil => exact ⟨x, by simp [shiftDown]⟩
  | cons z moved ih =>
    have hload : load (front ++ x :: z :: moved ++ behind) (front.length + 1) = .ok z := by
      simpa using load_middle (front ++ [x]) (moved ++ behind) z
    have hstore : store (front ++ x :: z :: moved ++ behind) front.length z =
        .ok (front ++ [z] ++ z :: moved ++ behind) := by
      simpa using store_middle front (z :: moved ++ behind) x z
    obtain ⟨last, hlast⟩ := ih (front ++ [z]) z
    refine ⟨last, ?_⟩
    rw [List.length_cons, shiftDown, hload]
    simp only [bind, Except.bind, hstore]
    simpa using hlast

end Shifts

end ZoraVM.Foundation
