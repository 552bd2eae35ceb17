import ZoraVM.Foundation.CString
import ZoraVM.Foundation.Heap

namespace ZoraVM.Foundation

section Lists

variable {α : Type}

def splice (b : List α) (offset : Nat) (bytes : List α) : List α :=
  b.take offset ++ bytes ++ b.drop (offset + bytes.length)

def resize (filler : α) (size : Nat) (b : List α) : List α :=
  b.take size ++ List.replicate (size - b.length) filler

variable {b bytes : List α} {offset size i : Nat} {filler x : α}

theorem getElem?_splice_inside (h : offset ≤ b.length) (hi : bytes[i]? = some x) :
    (splice b offset bytes)[offset + i]? = some x := by
  obtain ⟨hlt, _⟩ := List.getElem?_eq_some_iff.mp hi
  have htake : (b.take offset).length = offset := by simp [h]
  rw [splice, List.append_assoc, List.getElem?_append_right (by omega),
    List.getElem?_append_left (by omega), htake, Nat.add_sub_cancel_left, hi]

theorem getElem?_splice_outside (h : offset + bytes.length ≤ b.length)
    (hi : i < offset ∨ offset + bytes.length ≤ i) : (splice b offset bytes)[i]? = b[i]? := by
  have htake : (b.take offset).length = offset := by
    rw [List.length_take]
    omega
  rw [splice, List.append_assoc]
  rcases hi with hi | hi
  · rw [List.getElem?_append_left (by omega), List.getElem?_take_of_lt hi]
  · rw [List.getElem?_append_right (by omega), List.getElem?_append_right (by omega),
      List.getElem?_drop]
    congr 1
    omega

theorem getElem?_resize (hi : i < size) (hx : b[i]? = some x) :
    (resize filler size b)[i]? = some x := by
  obtain ⟨hlt, _⟩ := List.getElem?_eq_some_iff.mp hx
  rw [resize, List.getElem?_append_left (by rw [List.length_take]; omega),
    List.getElem?_take_of_lt hi, hx]

end Lists

section Blocks

-- A null pointer is `none`. What realloc leaves behind the old bytes is anything; here it is 0.
def reallocate (blocks : Heap Bytes) (data : Option Nat) (size : Nat) :
    Outcome (Heap Bytes × Nat) :=
  match data with
  | none => .ok (blocks.alloc (resize 0 size []), blocks.size)
  | some p =>
    match blocks.get p with
    | none => .error .freedBlock
    | some b => .ok ((blocks.free p).alloc (resize 0 size b), blocks.size)

def copyInto (blocks : Heap Bytes) (data : Option Nat) (offset : Nat) (bytes : Bytes) :
    Outcome (Heap Bytes) :=
  match data with
  | none => if bytes = [] then .ok blocks else .error .wildPointer
  | some p =>
    match blocks.get p with
    | none => .error .freedBlock
    | some b =>
      if offset + bytes.length ≤ b.length then .ok (blocks.put p (splice b offset bytes))
      else .error .bufferOverflow

def copyFrom (blocks : Heap Bytes) (data : Option Nat) (offset count : Nat) : Outcome Bytes :=
  match data with
  | none => .error .wildPointer
  | some p =>
    match blocks.get p with
    | none => .error .freedBlock
    | some b =>
      if offset + count ≤ b.length then .ok ((b.drop offset).take count)
      else .error .bufferOverflow

variable {blocks blocks' : Heap Bytes} {p q offset size : Nat} {bytes : Bytes}

theorem reallocate_some (h : reallocate blocks (some p) size = .ok (blocks', q)) :
    ∃ b, blocks.get p = some b ∧ q = blocks.size ∧
      blocks' = (blocks.free p).alloc (resize 0 size b) := by
  dsimp only [reallocate] at h
  split at h
  · cases h
  · next b hb =>
    obtain ⟨rfl, rfl⟩ := Prod.mk.inj (Except.ok.inj h)
    exact ⟨b, hb, rfl, rfl⟩

theorem copyInto_some (h : copyInto blocks (some p) offset bytes = .ok blocks') :
    ∃ b, blocks.get p = some b ∧ offset + bytes.length ≤ b.length ∧
      blocks' = blocks.put p (splice b offset bytes) := by
  dsimp only [copyInto] at h
  split at h
  · cases h
  · next b hb =>
    split at h
    · next hfit => exact ⟨b, hb, hfit, (Except.ok.inj h).symm⟩
    · cases h

end Blocks

end ZoraVM.Foundation
