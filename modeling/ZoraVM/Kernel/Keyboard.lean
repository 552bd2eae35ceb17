import ZoraVM.Foundation.RingBuffer
import ZoraVM.Kernel.Interrupts

namespace ZoraVM.Kernel

open Foundation

-- irq_keyboard with the byte it takes from the controller as an argument.
def irqKeyboardScancode (scancode : BitVec 8) (kb : Keyboard) : Keyboard :=
  if kb.count < kbBufferSize then
    { kb with
      buffer := Function.update kb.buffer kb.writePos scancode
      writePos := (kb.writePos + 1) % kbBufferSize
      count := kb.count + 1 }
  else kb

theorem irqKeyboard_eq (k : KernelState) :
    irqKeyboard k = { k with keyboard := irqKeyboardScancode 0x1E k.keyboard } := by
  by_cases hroom : k.keyboard.count < kbBufferSize
  · simp only [irqKeyboard, irqKeyboardScancode, if_pos hroom]
  · simp only [irqKeyboard, irqKeyboardScancode, if_neg hroom]

def interruptsKeyboardGetchar (kb : Keyboard) : BitVec 8 × Keyboard :=
  if kb.count = 0 then (0, kb)
  else
    (kb.buffer kb.readPos,
      { kb with readPos := (kb.readPos + 1) % kbBufferSize, count := kb.count - 1 })

def interruptsKeyboardAvailable (kb : Keyboard) : Bool := kb.count > 0

def bootKeyboard : Keyboard := ⟨fun _ => 0, 0, 0, 0⟩

inductive KeyboardCall where
  | irqKeyboard (scancode : BitVec 8)
  | getchar
  deriving DecidableEq, Repr

structure KeyboardLog where
  keyboard : Keyboard
  accepted : List (BitVec 8)
  dropped : List (BitVec 8)
  returned : List (BitVec 8)

namespace KeyboardLog

def boot : KeyboardLog := ⟨bootKeyboard, [], [], []⟩

-- A scancode counts as accepted when the call stored it; a 0 read from an empty buffer is no scancode.
def next (l : KeyboardLog) : KeyboardCall → KeyboardLog
  | .irqKeyboard scancode =>
    let kb := irqKeyboardScancode scancode l.keyboard
    if kb.count = l.keyboard.count then
      { l with keyboard := kb, dropped := l.dropped ++ [scancode] }
    else { l with keyboard := kb, accepted := l.accepted ++ [scancode] }
  | .getchar =>
    let (scancode, kb) := interruptsKeyboardGetchar l.keyboard
    if interruptsKeyboardAvailable l.keyboard then
      { l with keyboard := kb, returned := l.returned ++ [scancode] }
    else { l with keyboard := kb }

def run (calls : List KeyboardCall) : KeyboardLog := calls.foldl next boot

end KeyboardLog

def KeyboardCall.queueCall : KeyboardCall → QueueCall (BitVec 8)
  | .irqKeyboard scancode => .put scancode
  | .getchar => .take

def Keyboard.ring (kb : Keyboard) : RingBuffer (BitVec 8) :=
  ⟨kb.buffer, kb.readPos, kb.writePos, kb.count⟩

variable {kb : Keyboard} {l : KeyboardLog} {q : QueueLog (BitVec 8)}

theorem ring_irqKeyboardScancode (scancode : BitVec 8) :
    (irqKeyboardScancode scancode kb).ring = kb.ring.put kbBufferSize scancode := by
  by_cases hroom : kb.count < kbBufferSize
  · simp [irqKeyboardScancode, Keyboard.ring, RingBuffer.put, hroom]
  · simp [irqKeyboardScancode, Keyboard.ring, RingBuffer.put, hroom]

theorem ring_getchar :
    (interruptsKeyboardGetchar kb).2.ring = (kb.ring.take kbBufferSize).2 := by
  by_cases hnone : kb.count = 0
  · simp [interruptsKeyboardGetchar, Keyboard.ring, RingBuffer.take, hnone]
  · simp [interruptsKeyboardGetchar, Keyboard.ring, RingBuffer.take, hnone]

structure KeyboardLog.Refines (l : KeyboardLog) (q : QueueLog (BitVec 8)) : Prop where
  sound : l.keyboard.ring.Sound kbBufferSize
  pending : l.keyboard.ring.contents kbBufferSize = q.pending
  accepted : l.accepted = q.accepted
  dropped : l.dropped = q.dropped
  returned : l.returned = q.returned

namespace KeyboardLog.Refines

theorem boot : KeyboardLog.boot.Refines QueueLog.empty where
  sound := ⟨by decide, rfl, by decide⟩
  pending := rfl
  accepted := rfl
  dropped := rfl
  returned := rfl

theorem count_eq (h : l.Refines q) : l.keyboard.count = q.pending.length := by
  rw [← h.pending, RingBuffer.length_contents]
  rfl

theorem next_irqKeyboard (h : l.Refines q) (scancode : BitVec 8) :
    (l.next (.irqKeyboard scancode)).Refines (q.next kbBufferSize (.put scancode)) := by
  have hsound := h.sound.put scancode
  have hcount := h.count_eq
  rw [← ring_irqKeyboardScancode] at hsound
  by_cases hroom : l.keyboard.count < kbBufferSize
  · have hput := RingBuffer.contents_put h.sound hroom scancode
    have hne : (irqKeyboardScancode scancode l.keyboard).count ≠ l.keyboard.count := by
      simp [irqKeyboardScancode, hroom]
    rw [← ring_irqKeyboardScancode, h.pending] at hput
    simp only [next, if_neg hne, QueueLog.next, if_pos (hcount ▸ hroom)]
    exact ⟨hsound, hput, by rw [h.accepted], h.dropped, h.returned⟩
  · have hsame : irqKeyboardScancode scancode l.keyboard = l.keyboard := by
      simp [irqKeyboardScancode, hroom]
    simp only [next, hsame, if_pos, QueueLog.next, if_neg (hcount ▸ hroom)]
    exact ⟨h.sound, h.pending, h.accepted, by rw [h.dropped], h.returned⟩

theorem next_getchar (h : l.Refines q) :
    (l.next .getchar).Refines (q.next kbBufferSize .take) := by
  have hsound := h.sound.take
  have hcount := h.count_eq
  rw [← ring_getchar] at hsound
  by_cases hnone : l.keyboard.count = 0
  · have hempty : q.pending = [] := List.length_eq_zero_iff.mp (hcount ▸ hnone)
    simp only [next, interruptsKeyboardGetchar, interruptsKeyboardAvailable, if_pos hnone,
      QueueLog.next, hempty]
    simpa [hnone] using h
  · have htake := RingBuffer.contents_take h.sound hnone
    have hhead : (interruptsKeyboardGetchar l.keyboard).1 =
        l.keyboard.ring.cells l.keyboard.ring.readPos := by
      simp [interruptsKeyboardGetchar, hnone, Keyboard.ring]
    have hsome : interruptsKeyboardAvailable l.keyboard = true := by
      simp [interruptsKeyboardAvailable, Nat.pos_of_ne_zero hnone]
    rw [← ring_getchar, h.pending, ← hhead] at htake
    simp only [next, hsome, if_true, QueueLog.next, htake]
    exact ⟨hsound, rfl, h.accepted, h.dropped, by rw [h.returned]⟩

theorem next (h : l.Refines q) (call : KeyboardCall) :
    (l.next call).Refines (q.next kbBufferSize call.queueCall) := by
  cases call with
  | irqKeyboard scancode => exact h.next_irqKeyboard scancode
  | getchar => exact h.next_getchar

theorem foldl (h : l.Refines q) (calls : List KeyboardCall) :
    (calls.foldl KeyboardLog.next l).Refines
      ((calls.map KeyboardCall.queueCall).foldl (QueueLog.next kbBufferSize) q) := by
  induction calls generalizing l q with
  | nil => exact h
  | cons call calls ih => exact ih (h.next call)

end KeyboardLog.Refines

theorem keyboard_bounded_fifo (calls : List KeyboardCall) :
    let l := KeyboardLog.run calls
    let q := (calls.map KeyboardCall.queueCall).foldl (QueueLog.next kbBufferSize) .empty
    (l.keyboard.readPos < 256 ∧ l.keyboard.writePos < 256 ∧ l.keyboard.count ≤ 256) ∧
    (l.keyboard.count % 256 = (l.keyboard.writePos + 256 - l.keyboard.readPos) % 256 ∧
      (l.keyboard.writePos = l.keyboard.readPos →
        l.keyboard.count = 0 ∨ l.keyboard.count = 256)) ∧
    (l.accepted = q.accepted ∧ l.dropped = q.dropped ∧ l.returned = q.returned) ∧
    (l.accepted = l.returned ++ q.pending ∧ q.pending.length = l.keyboard.count) ∧
    ∀ scancode, (l.next (.irqKeyboard scancode)).dropped ≠ l.dropped →
      l.accepted.length = l.returned.length + 256 := by
  intro l q
  have href : l.Refines q := KeyboardLog.Refines.boot.foldl calls
  have hkept : q.Kept kbBufferSize := QueueLog.kept_empty.run _
  have hconserved : l.accepted = l.returned ++ q.pending := by
    rw [href.accepted, href.returned]
    exact hkept.conserved
  refine ⟨⟨href.sound.read_lt, href.sound.write_lt, href.sound.count_le⟩,
    ⟨href.sound.count_mod, href.sound.meeting⟩,
    ⟨href.accepted, href.dropped, href.returned⟩,
    ⟨hconserved, href.count_eq.symm⟩, fun scancode hdropped => ?_⟩
  rw [(href.next _).dropped, href.dropped] at hdropped
  have hfull := hkept.dropped_only_full hdropped
  rw [hconserved, List.length_append, hfull]
  rfl

end ZoraVM.Kernel
