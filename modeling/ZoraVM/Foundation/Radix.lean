import Mathlib.Data.Nat.Digits.Lemmas
import ZoraVM.Foundation.CString

namespace ZoraVM.Foundation

section Radix

variable {b n w : Nat} {c : UInt8} {text rest : Bytes}

def isDigitIn (b : Nat) (c : UInt8) : Bool := decide (48 ≤ c.toNat) && decide (c.toNat < 48 + b)

def digitByte (d : Nat) : UInt8 := UInt8.ofNat (48 + d)

def radixText (b n : Nat) : Bytes :=
  if n = 0 then [48] else (Nat.digits b n).reverse.map digitByte

def radixValue (b : Nat) (text : Bytes) : Nat :=
  text.foldl (fun n c => b * n + (c.toNat - 48)) 0

def zeroPadded (w : Nat) (text : Bytes) : Bytes := List.replicate (w - text.length) 48 ++ text

theorem toNat_digitByte {d : Nat} (h : d < 10) : (digitByte d).toNat = 48 + d := by
  rw [digitByte, UInt8.toNat_ofNat']
  omega

theorem isDigitIn_digitByte {d : Nat} (hb : b ≤ 10) (h : d < b) :
    isDigitIn b (digitByte d) = true := by
  rw [isDigitIn, toNat_digitByte (by omega)]
  simpa using h

theorem isDigitIn_zero (hb : 0 < b) : isDigitIn b 48 = true := by
  simpa [isDigitIn] using hb

theorem radixText_digits (hb₂ : 2 ≤ b) (hb : b ≤ 10) :
    ∀ c ∈ radixText b n, isDigitIn b c = true := by
  intro c hc
  rw [radixText] at hc
  split at hc
  · rw [List.mem_singleton.mp hc]
    exact isDigitIn_zero (by omega)
  · obtain ⟨d, hd, rfl⟩ := List.mem_map.mp hc
    exact isDigitIn_digitByte hb (Nat.digits_lt_base hb₂ (List.mem_reverse.mp hd))

theorem length_radixText_le (hb : 2 ≤ b) (hw : 0 < w) (h : n < b ^ w) :
    (radixText b n).length ≤ w := by
  rw [radixText]
  split
  · exact hw
  · rw [List.length_map, List.length_reverse]
    exact (Nat.digits_length_le_iff hb n).mpr h

theorem radixValue_digits {digits : List Nat} (h : ∀ d ∈ digits, d < 10) :
    radixValue b (digits.reverse.map digitByte) = Nat.ofDigits b digits := by
  rw [radixValue, List.foldl_map, List.foldl_reverse]
  induction digits with
  | nil => rfl
  | cons d digits ih =>
    have hd := h d List.mem_cons_self
    rw [List.foldr_cons, ih fun d hd => h d (List.mem_cons_of_mem _ hd), toNat_digitByte hd,
      Nat.add_sub_cancel_left, Nat.ofDigits_cons, Nat.add_comm]

theorem radixValue_radixText (hb₂ : 2 ≤ b) (hb : b ≤ 10) (n : Nat) :
    radixValue b (radixText b n) = n := by
  rw [radixText]
  split
  · rename_i h
    simp [radixValue, h]
  · rw [radixValue_digits fun d hd => (Nat.digits_lt_base hb₂ hd).trans_le hb, Nat.ofDigits_digits]

theorem radixValue_zeroPadded (w : Nat) (text : Bytes) :
    radixValue b (zeroPadded w text) = radixValue b text := by
  rw [zeroPadded]
  induction w - text.length with
  | zero => rfl
  | succ k ih => simpa [radixValue, List.replicate_succ] using ih

theorem length_zeroPadded (h : text.length ≤ w) : (zeroPadded w text).length = w := by
  rw [zeroPadded, List.length_append, List.length_replicate]
  omega

theorem zeroPadded_digits (hb : 0 < b) (h : ∀ c ∈ text, isDigitIn b c = true) :
    ∀ c ∈ zeroPadded w text, isDigitIn b c = true := by
  intro c hc
  rcases List.mem_append.mp hc with hc | hc
  · rw [List.eq_of_mem_replicate hc]
    exact isDigitIn_zero hb
  · exact h c hc

theorem takeWhile_digits (h : ∀ c ∈ text, isDigitIn b c = true)
    (hrest : ∀ c ∈ rest.head?, isDigitIn b c = false) :
    (text ++ rest).takeWhile (isDigitIn b) = text := by
  rw [List.takeWhile_append_of_pos h]
  cases rest with
  | nil => simp
  | cons c rest => simp [hrest c rfl]

end Radix

end ZoraVM.Foundation
