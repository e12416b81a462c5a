import Mathlib.Data.Nat.ChineseRemainder
import Mathlib.FieldTheory.Finite.Basic

/-- A modulus of two prime numbers, with exponents that undo each other below each of them. -/
structure RsaKey (n e d : ℕ) where
  p : ℕ
  q : ℕ
  prime_p : p.Prime
  prime_q : q.Prime
  ne : p ≠ q
  modulus : n = p * q
  inverse_p : e * d ≡ 1 [MOD p - 1]
  inverse_q : e * d ≡ 1 [MOD q - 1]

namespace RsaKey

variable {n e d : ℕ}

/-- By Fermat's little theorem, exponents count modulo what is below a prime number. -/
theorem pow_modEq {p k : ℕ} (hp : p.Prime) (hk : k ≠ 0) (h : k ≡ 1 [MOD p - 1]) (m : ℕ) :
    m ^ k ≡ m [MOD p] := by
  have : Fact p.Prime := ⟨hp⟩
  rw [← ZMod.natCast_eq_natCast_iff, Nat.cast_pow]
  by_cases hm : (m : ZMod p) = 0
  · rw [hm, zero_pow hk]
  · obtain ⟨c, hc⟩ := (Nat.modEq_iff_dvd' (Nat.one_le_iff_ne_zero.mpr hk)).mp h.symm
    have hsplit : k = (p - 1) * c + 1 := by omega
    rw [hsplit, pow_succ, pow_mul, ZMod.pow_card_sub_one_eq_one hm, one_pow, one_mul]

theorem exponents_ne_zero (key : RsaKey n e d) : e * d ≠ 0 := by
  intro hzero
  have hp := key.inverse_p
  have hq := key.inverse_q
  rw [hzero] at hp hq
  have hp1 := (Nat.modEq_iff_dvd' (Nat.zero_le 1)).mp hp
  have hq1 := (Nat.modEq_iff_dvd' (Nat.zero_le 1)).mp hq
  have hp2 := key.prime_p.two_le
  have hq2 := key.prime_q.two_le
  have hpeq : key.p - 1 = 1 := Nat.dvd_one.mp hp1
  have hqeq : key.q - 1 = 1 := Nat.dvd_one.mp hq1
  exact key.ne (by omega)

/-- Raising to one exponent undoes raising to the other. -/
theorem pow_pow_mod (key : RsaKey n e d) {m : ℕ} (hm : m < n) : (m ^ e % n) ^ d % n = m := by
  have hne := key.exponents_ne_zero
  have hp := pow_modEq key.prime_p hne key.inverse_p m
  have hq := pow_modEq key.prime_q hne key.inverse_q m
  have hcoprime := (Nat.coprime_primes key.prime_p key.prime_q).mpr key.ne
  have hn : m ^ (e * d) ≡ m [MOD n] := by
    rw [key.modulus]
    exact (Nat.modEq_and_modEq_iff_modEq_mul hcoprime).mp ⟨hp, hq⟩
  rw [← Nat.pow_mod, ← pow_mul]
  exact Nat.mod_eq_of_modEq hn hm

end RsaKey
