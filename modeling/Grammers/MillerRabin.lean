import Mathlib.FieldTheory.Finite.Basic

/-- A number that looks prime to a base, when what is below it is split into a power of two and an
odd factor. -/
def StrongProbablePrime (n s d a : ℕ) : Prop :=
  a ^ d % n = 1 ∨ ∃ i < s, a ^ (2 ^ i * d) % n = n - 1

namespace StrongProbablePrime

/-- The last square that is not one is minus one. -/
theorem of_pow_eq_one {K : Type*} [Field K] {x : K} {d : ℕ} (s : ℕ) (h : x ^ (2 ^ s * d) = 1) :
    x ^ d = 1 ∨ ∃ i < s, x ^ (2 ^ i * d) = -1 := by
  induction s with
  | zero => exact Or.inl (by simpa using h)
  | succ s ih =>
    have hsquare : (x ^ (2 ^ s * d)) ^ 2 = 1 := by
      rw [← pow_mul, ← h]
      congr 1
      ring
    rcases sq_eq_one_iff.mp hsquare with hone | hminus
    · rcases ih hone with hd | ⟨i, hi, hminus⟩
      · exact Or.inl hd
      · exact Or.inr ⟨i, Nat.lt_succ_of_lt hi, hminus⟩
    · exact Or.inr ⟨s, Nat.lt_succ_self s, hminus⟩

/-- A prime number looks prime to each base that it does not divide. -/
theorem of_prime {p s d a : ℕ} (hp : p.Prime) (h : p - 1 = 2 ^ s * d) (ha : ¬p ∣ a) :
    StrongProbablePrime p s d a := by
  have : Fact p.Prime := ⟨hp⟩
  have hne : (a : ZMod p) ≠ 0 := by rwa [Ne, ZMod.natCast_eq_zero_iff]
  have hfermat := ZMod.pow_card_sub_one_eq_one hne
  rw [h] at hfermat
  have hminus : ((p - 1 : ℕ) : ZMod p) = -1 := by
    rw [Nat.cast_sub hp.one_le, ZMod.natCast_self, Nat.cast_one, zero_sub]
  rcases of_pow_eq_one s hfermat with hone | ⟨i, hi, hpow⟩
  · refine Or.inl ?_
    rw [← Nat.cast_one, ← Nat.cast_pow, ZMod.natCast_eq_natCast_iff'] at hone
    rwa [Nat.mod_eq_of_lt hp.one_lt] at hone
  · refine Or.inr ⟨i, hi, ?_⟩
    rw [← hminus, ← Nat.cast_pow, ZMod.natCast_eq_natCast_iff'] at hpow
    rwa [Nat.mod_eq_of_lt (Nat.sub_lt hp.pos Nat.one_pos)] at hpow

end StrongProbablePrime
