import Mathlib.Data.List.Basic
import Mathlib.Data.Nat.Basic
import Mathlib.Tactic.Common

namespace Base64

/-! Groups of three bytes as four numbers of six bits, without padding and with no bits to spare. -/

def sextets : List UInt8 → List Nat
  | [] => []
  | [a] => [a.toNat / 4, a.toNat % 4 * 16]
  | [a, b] => [a.toNat / 4, a.toNat % 4 * 16 + b.toNat / 16, b.toNat % 16 * 4]
  | a :: b :: c :: rest =>
    a.toNat / 4 :: (a.toNat % 4 * 16 + b.toNat / 16) :: (b.toNat % 16 * 4 + c.toNat / 64) ::
      c.toNat % 64 :: sextets rest

/-- The bytes that numbers of six bits stand for, if no bits are left over. -/
def ofSextets : List Nat → Option (List UInt8)
  | [] => some []
  | [_] => none
  | [x, y] => if y % 16 = 0 then some [UInt8.ofNat (x * 4 + y / 16)] else none
  | [x, y, z] =>
    if z % 4 = 0 then
      some [UInt8.ofNat (x * 4 + y / 16), UInt8.ofNat (y % 16 * 16 + z / 4)]
    else none
  | x :: y :: z :: w :: rest => (ofSextets rest).map fun bytes =>
    UInt8.ofNat (x * 4 + y / 16) :: UInt8.ofNat (y % 16 * 16 + z / 4) ::
      UInt8.ofNat (z % 4 * 64 + w) :: bytes

theorem sextets_lt (bytes : List UInt8) : ∀ x ∈ sextets bytes, x < 64 := by
  induction bytes using sextets.induct with
  | case1 => exact nofun
  | case2 a =>
    have := a.toNat_lt
    simp [sextets]
    omega
  | case3 a b =>
    have := a.toNat_lt
    have := b.toNat_lt
    simp [sextets]
    omega
  | case4 a b c rest ih =>
    have := a.toNat_lt
    have := b.toNat_lt
    have := c.toNat_lt
    simp [sextets]
    exact ⟨by omega, by omega, by omega, by omega, ih⟩

theorem length_sextets (bytes : List UInt8) :
    (sextets bytes).length = (bytes.length * 4 + 2) / 3 := by
  induction bytes using sextets.induct with
  | case1 => rfl
  | case2 a => simp [sextets]
  | case3 a b => simp [sextets]
  | case4 a b c rest ih =>
    simp only [sextets, List.length_cons, ih]
    omega

theorem ofSextets_sextets (bytes : List UInt8) : ofSextets (sextets bytes) = some bytes := by
  induction bytes using sextets.induct with
  | case1 => rfl
  | case2 a =>
    have ha := a.toNat_lt
    have hfirst : a.toNat / 4 * 4 + a.toNat % 4 * 16 / 16 = a.toNat := by omega
    simp only [sextets, ofSextets, hfirst, UInt8.ofNat_toNat]
    rw [if_pos (by omega)]
  | case3 a b =>
    have hb := b.toNat_lt
    have hfirst : a.toNat / 4 * 4 + (a.toNat % 4 * 16 + b.toNat / 16) / 16 = a.toNat := by omega
    have hsecond : (a.toNat % 4 * 16 + b.toNat / 16) % 16 * 16 + b.toNat % 16 * 4 / 4 =
        b.toNat := by omega
    simp only [sextets, ofSextets, hfirst, hsecond, UInt8.ofNat_toNat]
    rw [if_pos (by omega)]
  | case4 a b c rest ih =>
    have hb := b.toNat_lt
    have hc := c.toNat_lt
    have hfirst : a.toNat / 4 * 4 + (a.toNat % 4 * 16 + b.toNat / 16) / 16 = a.toNat := by omega
    have hsecond : (a.toNat % 4 * 16 + b.toNat / 16) % 16 * 16 +
        (b.toNat % 16 * 4 + c.toNat / 64) / 4 = b.toNat := by omega
    have hthird : (b.toNat % 16 * 4 + c.toNat / 64) % 4 * 64 + c.toNat % 64 = c.toNat := by omega
    simp only [sextets, ofSextets, ih, Option.map_some, hfirst, hsecond, hthird, UInt8.ofNat_toNat]

theorem toNat_ofNat_of_lt {n : Nat} (h : n < 256) : (UInt8.ofNat n).toNat = n :=
  UInt8.toNat_ofNat_of_lt' h

/-- Only the numbers that bytes are written as are read. -/
theorem sextets_ofSextets (xs : List Nat) : ∀ {bytes : List UInt8}, (∀ x ∈ xs, x < 64) →
    ofSextets xs = some bytes → sextets bytes = xs := by
  induction xs using ofSextets.induct with
  | case1 =>
    rintro _ - ⟨⟩
    rfl
  | case2 x =>
    rintro _ - ⟨⟩
  | case3 x y h =>
    intro bytes hlt hread
    have hx := hlt x (by simp)
    have hy := hlt y (by simp)
    rw [ofSextets, if_pos h] at hread
    cases hread
    simp only [sextets, toNat_ofNat_of_lt (show x * 4 + y / 16 < 256 by omega)]
    congr 1
    · omega
    · congr 1
      omega
  | case4 x y h =>
    intro bytes hlt hread
    rw [ofSextets, if_neg h] at hread
    cases hread
  | case5 x y z h =>
    intro bytes hlt hread
    have hx := hlt x (by simp)
    have hy := hlt y (by simp)
    have hz := hlt z (by simp)
    rw [ofSextets, if_pos h] at hread
    cases hread
    simp only [sextets, toNat_ofNat_of_lt (show x * 4 + y / 16 < 256 by omega),
      toNat_ofNat_of_lt (show y % 16 * 16 + z / 4 < 256 by omega)]
    congr 1
    · omega
    · congr 1
      · omega
      · congr 1
        omega
  | case6 x y z h =>
    intro bytes hlt hread
    rw [ofSextets, if_neg h] at hread
    cases hread
  | case7 x y z w rest ih =>
    intro bytes hlt hread
    have hx := hlt x (by simp)
    have hy := hlt y (by simp)
    have hz := hlt z (by simp)
    have hw := hlt w (by simp)
    rw [ofSextets] at hread
    obtain ⟨more, hmore, rfl⟩ := Option.map_eq_some_iff.mp hread
    have hrest := ih (fun v hv => hlt v (by simp [hv])) hmore
    simp only [sextets, hrest, toNat_ofNat_of_lt (show x * 4 + y / 16 < 256 by omega),
      toNat_ofNat_of_lt (show y % 16 * 16 + z / 4 < 256 by omega),
      toNat_ofNat_of_lt (show z % 4 * 64 + w < 256 by omega)]
    congr 1
    · omega
    · congr 1
      · omega
      · congr 1
        · omega
        · congr 1
          omega

/-- The characters that stand for the numbers of six bits. -/
structure Alphabet where
  chars : List Char
  nodup : chars.Nodup
  full : chars.length = 64

variable (alphabet : Alphabet)

def char (x : Nat) : Char := alphabet.chars.getD x 'A'

def value (c : Char) : Option Nat :=
  if alphabet.chars.idxOf c < 64 then some (alphabet.chars.idxOf c) else none

def encode (bytes : List UInt8) : List Char := (sextets bytes).map (char alphabet)

def decode (text : List Char) : Option (List UInt8) := (text.mapM (value alphabet)).bind ofSextets

variable {alphabet}

theorem value_char {x : Nat} (h : x < 64) : value alphabet (char alphabet x) = some x := by
  have hlt : x < alphabet.chars.length := by rw [alphabet.full]; exact h
  have hchar : char alphabet x = alphabet.chars[x] := by simp [char, hlt]
  rw [hchar, value, alphabet.nodup.idxOf_getElem, if_pos h]

theorem char_value {c : Char} {x : Nat} (h : value alphabet c = some x) :
    x < 64 ∧ char alphabet x = c := by
  unfold value at h
  split at h
  next hlt =>
    cases h
    have hlength : alphabet.chars.idxOf c < alphabet.chars.length := by
      rw [alphabet.full]
      exact hlt
    refine ⟨hlt, ?_⟩
    simp [char, hlength]
  next => cases h

theorem mapM_value_char (xs : List Nat) (h : ∀ x ∈ xs, x < 64) :
    (xs.map (char alphabet)).mapM (value alphabet) = some xs := by
  induction xs with
  | nil => rfl
  | cons x xs ih =>
    have hx : value alphabet (char alphabet x) = some x := value_char (h x (by simp))
    have hxs := ih fun y hy => h y (by simp [hy])
    simp [List.mapM_cons, hx, hxs]

theorem map_char_of_mapM {text : List Char} : ∀ {xs : List Nat},
    text.mapM (value alphabet) = some xs → (∀ x ∈ xs, x < 64) ∧ xs.map (char alphabet) = text := by
  induction text with
  | nil =>
    rintro _ ⟨⟩
    exact ⟨nofun, rfl⟩
  | cons c text ih =>
    intro xs h
    rw [List.mapM_cons] at h
    obtain ⟨x, hx, h⟩ := Option.bind_eq_some_iff.mp h
    obtain ⟨more, hmore, h⟩ := Option.bind_eq_some_iff.mp h
    cases h
    obtain ⟨hlt, hchar⟩ := char_value hx
    obtain ⟨hall, htext⟩ := ih hmore
    refine ⟨?_, by rw [List.map_cons, hchar, htext]⟩
    intro y hy
    rcases List.mem_cons.mp hy with rfl | hy
    · exact hlt
    · exact hall y hy

theorem decode_encode (bytes : List UInt8) : decode alphabet (encode alphabet bytes) = some bytes := by
  rw [decode, encode, mapM_value_char _ (sextets_lt bytes)]
  exact ofSextets_sextets bytes

theorem encode_decode {text : List Char} {bytes : List UInt8}
    (h : decode alphabet text = some bytes) : encode alphabet bytes = text := by
  obtain ⟨xs, hxs, hread⟩ := Option.bind_eq_some_iff.mp h
  obtain ⟨hlt, htext⟩ := map_char_of_mapM hxs
  rw [encode, sextets_ofSextets xs hlt hread, htext]

theorem length_encode (bytes : List UInt8) :
    (encode alphabet bytes).length = (bytes.length * 4 + 2) / 3 := by
  rw [encode, List.length_map, length_sextets]

theorem mem_encode {bytes : List UInt8} {c : Char} (h : c ∈ encode alphabet bytes) :
    c ∈ alphabet.chars := by
  obtain ⟨x, hx, rfl⟩ := List.mem_map.mp h
  have hlt : x < alphabet.chars.length := by
    rw [alphabet.full]
    exact sextets_lt bytes x hx
  simp [char, hlt]

/-- The alphabet for addresses and file names. -/
def urlSafe : Alphabet where
  chars := "ABCDEFGHIJKLMNOPQRSTUVWXYZabcdefghijklmnopqrstuvwxyz0123456789-_".toList
  nodup := by decide
  full := by decide

end Base64
