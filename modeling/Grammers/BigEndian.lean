import Mathlib.Data.List.Lex
import Mathlib.Data.Nat.Log
import Mathlib.Tactic.Ring
import Mathlib.Tactic.Linarith

namespace BigEndian

/-- The lowest bytes of a number, most significant first. -/
def toBytes : Nat → Nat → List UInt8
  | 0, _ => []
  | width + 1, n => UInt8.ofNat (n / 256 ^ width) :: toBytes width n

/-- As few bytes as there can be, but one for zero. -/
def toBytesBe (n : Nat) : List UInt8 := toBytes (Nat.log 256 n + 1) n

def ofBytes : List UInt8 → Nat
  | [] => 0
  | b :: bs => b.toNat * 256 ^ bs.length + ofBytes bs

/-- How bytes of equal number are compared. -/
def order (bs : List UInt8) : List Nat := bs.map UInt8.toNat

@[simp]
theorem length_toBytes (width n : Nat) : (toBytes width n).length = width := by
  induction width with
  | zero => rfl
  | succ width ih => simp [toBytes, ih]

theorem drop_toBytes (k width n : Nat) : (toBytes (k + width) n).drop k = toBytes width n := by
  induction k with
  | zero => simp
  | succ k ih =>
    rw [show k + 1 + width = (k + width) + 1 by omega]
    exact ih

theorem toBytes_succ_append (width n : Nat) :
    toBytes (width + 1) n = toBytes width (n / 256) ++ [UInt8.ofNat n] := by
  induction width generalizing n with
  | zero => simp [toBytes]
  | succ width ih =>
    have hdiv : n / 256 ^ (width + 1) = n / 256 / 256 ^ width := by
      rw [Nat.div_div_eq_div_mul, pow_succ, Nat.mul_comm]
    rw [toBytes, ih, toBytes, hdiv, List.cons_append]

theorem ofBytes_lt (bs : List UInt8) : ofBytes bs < 256 ^ bs.length := by
  induction bs with
  | nil => simp [ofBytes]
  | cons b bs ih =>
    have hb : b.toNat + 1 ≤ 256 := b.toNat_lt
    have hpow := Nat.mul_le_mul_right (256 ^ bs.length) hb
    simp only [ofBytes, List.length_cons, pow_succ]
    linarith

theorem ofBytes_toBytes (width n : Nat) : ofBytes (toBytes width n) = n % 256 ^ width := by
  induction width with
  | zero => simp [toBytes, ofBytes, Nat.mod_one]
  | succ width ih =>
    have hmod : n % (256 ^ width * 256) = n % 256 ^ width + 256 ^ width * (n / 256 ^ width % 256) :=
      Nat.mod_mul
    simp only [toBytes, ofBytes, ih, length_toBytes, UInt8.toNat_ofNat']
    rw [pow_succ 256 width, hmod]
    ring

/-- A number that is small has no more than zeros in front of it. -/
theorem toBytes_add {width n : Nat} (k : Nat) (h : n < 256 ^ width) :
    toBytes (k + width) n = List.replicate k 0 ++ toBytes width n := by
  induction k with
  | zero => simp
  | succ k ih =>
    have hpow : 256 ^ width ≤ 256 ^ (k + width) := Nat.pow_le_pow_right (by decide) (by omega)
    rw [Nat.add_right_comm, toBytes, ih, Nat.div_eq_of_lt (h.trans_le hpow)]
    rfl

theorem ofBytes_append (high low : List UInt8) :
    ofBytes (high ++ low) = ofBytes high * 256 ^ low.length + ofBytes low := by
  induction high with
  | nil => simp [ofBytes]
  | cons b high ih =>
    simp only [List.cons_append, ofBytes, ih, List.length_append, pow_add]
    ring

theorem ofBytes_zero_cons (bs : List UInt8) : ofBytes (0 :: bs) = ofBytes bs := by
  simp [ofBytes]

theorem toBytes_ofBytes_add (bs : List UInt8) (high : Nat) :
    toBytes bs.length (high * 256 ^ bs.length + ofBytes bs) = bs := by
  induction bs generalizing high with
  | nil => rfl
  | cons b bs ih =>
    have hlt := ofBytes_lt bs
    have hsplit : high * 256 ^ (bs.length + 1) + ofBytes (b :: bs) =
        (high * 256 + b.toNat) * 256 ^ bs.length + ofBytes bs := by
      simp only [ofBytes, pow_succ]
      ring
    have hdiv : ((high * 256 + b.toNat) * 256 ^ bs.length + ofBytes bs) / 256 ^ bs.length =
        high * 256 + b.toNat := by
      rw [Nat.add_comm, Nat.add_mul_div_right _ _ (by positivity), Nat.div_eq_of_lt hlt, Nat.zero_add]
    simp only [List.length_cons, toBytes]
    rw [hsplit, ih, hdiv]
    simp

/-- Bytes are determined by their number. -/
theorem toBytes_ofBytes (bs : List UInt8) : toBytes bs.length (ofBytes bs) = bs := by
  simpa using toBytes_ofBytes_add bs 0

theorem ofBytes_injective {as bs : List UInt8} (hlen : as.length = bs.length)
    (h : ofBytes as = ofBytes bs) : as = bs := by
  rw [← toBytes_ofBytes as, ← toBytes_ofBytes bs, hlen, h]

/-- Bytes compare as the numbers they stand for. -/
theorem order_lt_iff {as bs : List UInt8} (hlen : as.length = bs.length) :
    order as < order bs ↔ ofBytes as < ofBytes bs := by
  induction as generalizing bs with
  | nil =>
    obtain rfl := List.length_eq_zero_iff.mp hlen.symm
    simp [order, ofBytes]
  | cons a as ih =>
    cases bs with
    | nil => simp at hlen
    | cons b bs =>
      have hlen' : as.length = bs.length := by simpa using hlen
      have ha := ofBytes_lt as
      have hb := ofBytes_lt bs
      have hrest : as.map UInt8.toNat < bs.map UInt8.toNat ↔ ofBytes as < ofBytes bs := ih hlen'
      simp only [order, List.map_cons, List.cons_lt_cons_iff, ofBytes, hlen']
      rw [hlen'] at ha
      rcases lt_trichotomy a.toNat b.toNat with hlt | heq | hgt
      · have hmul := Nat.mul_le_mul_right (256 ^ bs.length) (Nat.succ_le_of_lt hlt)
        simp only [hlt, true_or, true_iff]
        rw [Nat.succ_mul] at hmul
        omega
      · rw [heq]
        simp [hrest]
      · have hmul := Nat.mul_le_mul_right (256 ^ bs.length) (Nat.succ_le_of_lt hgt)
        rw [Nat.succ_mul] at hmul
        have hne : ¬a.toNat < b.toNat ∧ a.toNat ≠ b.toNat := by omega
        simp only [hne, false_or, false_and, false_iff]
        omega

theorem ofBytes_toBytesBe (n : Nat) : ofBytes (toBytesBe n) = n := by
  rw [toBytesBe, ofBytes_toBytes]
  exact Nat.mod_eq_of_lt (Nat.lt_pow_succ_log_self (by decide) n)

theorem length_toBytesBe {width n : Nat} (h : n < 256 ^ (width + 1)) :
    (toBytesBe n).length ≤ width + 1 := by
  rw [toBytesBe, length_toBytes]
  exact Nat.log_lt_of_lt_pow' (Nat.succ_ne_zero width) h

/-- Zeros in front of a number do not change it. -/
theorem replicate_append_toBytesBe {width n : Nat} (h : n < 256 ^ (width + 1)) :
    List.replicate (width + 1 - (toBytesBe n).length) 0 ++ toBytesBe n = toBytes (width + 1) n := by
  have hadd := toBytes_add (width + 1 - (toBytesBe n).length) (ofBytes_lt (toBytesBe n))
  rw [Nat.sub_add_cancel (length_toBytesBe h), toBytes_ofBytes, ofBytes_toBytesBe] at hadd
  exact hadd.symm

end BigEndian
