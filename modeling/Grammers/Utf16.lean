import Mathlib.Data.List.Basic

namespace Utf16

/-! The units of UTF-16 as natural numbers, and what a text measures in them. -/

def encodeChar (c : Char) : List Nat :=
  if c.toNat < 0x10000 then [c.toNat]
  else [0xD800 + (c.toNat - 0x10000) / 0x400, 0xDC00 + (c.toNat - 0x10000) % 0x400]

def encode (text : List Char) : List Nat := text.flatMap encodeChar

/-- A character from one unit, unless the unit is a surrogate. -/
def decodeUnit (unit : Nat) : Option Char :=
  if 0xD800 ≤ unit ∧ unit ≤ 0xDFFF then none else some (Char.ofNat unit)

/-- A character from a pair of surrogates, the high one first. -/
def decodePair (high low : Nat) : Option Char :=
  if (0xD800 ≤ high ∧ high ≤ 0xDBFF) ∧ 0xDC00 ≤ low ∧ low ≤ 0xDFFF then
    some (Char.ofNat (0x10000 + (high - 0xD800) * 0x400 + (low - 0xDC00)))
  else none

/-- The number of units of one character. -/
def width (c : Char) : Nat := if c.toNat < 0x10000 then 1 else 2

/-- The number of units of a text. -/
def len (text : List Char) : Nat := (encode text).length

/-- The characters that lie before an offset as a whole. -/
def takeUnits : Nat → List Char → List Char
  | _, [] => []
  | n, c :: text => if width c ≤ n then c :: takeUnits (n - width c) text else []

/-- The characters between two offsets, an offset inside a character counting as its start. -/
def slice (text : List Char) (lo hi : Nat) : List Char :=
  (takeUnits hi text).drop (takeUnits lo text).length

theorem width_pos (c : Char) : 0 < width c := by
  unfold width
  split <;> omega

theorem length_encodeChar (c : Char) : (encodeChar c).length = width c := by
  unfold encodeChar width
  split <;> rfl

@[simp] theorem len_nil : len [] = 0 := rfl

@[simp] theorem len_cons (c : Char) (text : List Char) : len (c :: text) = width c + len text := by
  simp [len, encode, length_encodeChar]

@[simp] theorem len_append (a b : List Char) : len (a ++ b) = len a + len b := by
  simp [len, encode]

theorem len_eq_zero_iff {text : List Char} : len text = 0 ↔ text = [] := by
  cases text with
  | nil => simp
  | cons c text =>
    have := width_pos c
    simp only [len_cons, reduceCtorEq, iff_false]
    omega

theorem toNat_lt (c : Char) : c.toNat < 0x110000 ∧ ¬(0xD800 ≤ c.toNat ∧ c.toNat ≤ 0xDFFF) := by
  rcases c.valid with h | ⟨hlow, hhigh⟩
  · have hlt : c.toNat < 0xD800 := h
    omega
  · have hlt : c.toNat < 0x110000 := hhigh
    have hgt : 0xDFFF < c.toNat := hlow
    omega

/-- A character is one unit that decodes to it, or two surrogates that do. -/
theorem encodeChar_cases (c : Char) :
    (∃ unit, encodeChar c = [unit] ∧ decodeUnit unit = some c ∧ width c = 1) ∨
      ∃ high low, encodeChar c = [high, low] ∧ decodeUnit high = none ∧
        decodePair high low = some c ∧ width c = 2 := by
  obtain ⟨hlt, hnot⟩ := toNat_lt c
  by_cases hbmp : c.toNat < 0x10000
  · refine Or.inl ⟨c.toNat, if_pos hbmp, ?_, if_pos hbmp⟩
    rw [decodeUnit, if_neg hnot, Char.ofNat_toNat]
  · refine Or.inr ⟨_, _, if_neg hbmp, if_pos (by omega), ?_, if_neg hbmp⟩
    have hdigits := Nat.div_add_mod (c.toNat - 0x10000) 0x400
    have hmod := Nat.mod_lt (c.toNat - 0x10000) (show 0 < 0x400 by omega)
    have hcode : 0x10000 + (0xD800 + (c.toNat - 0x10000) / 0x400 - 0xD800) * 0x400 +
        (0xDC00 + (c.toNat - 0x10000) % 0x400 - 0xDC00) = c.toNat := by omega
    rw [decodePair, if_pos (by omega), hcode, Char.ofNat_toNat]

@[simp] theorem takeUnits_nil (n : Nat) : takeUnits n [] = [] := by
  cases n <;> rfl

theorem takeUnits_eq_nil {n : Nat} {c : Char} {text : List Char} (h : n < width c) :
    takeUnits n (c :: text) = [] := by
  rw [takeUnits, if_neg (by omega)]

end Utf16
