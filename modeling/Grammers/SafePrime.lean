import Mathlib.GroupTheory.OrderOfElement
import Mathlib.NumberTheory.LegendreSymbol.QuadraticReciprocity

/-- A prime number of which half is a prime number. -/
structure SafePrime (p r : ℕ) : Prop where
  prime : p.Prime
  half : r.Prime
  eq : p = 2 * r + 1

namespace SafePrime

variable {p r : ℕ}

theorem mod_four (h : SafePrime p r) (hr : r ≠ 2) : p % 4 = 3 := by
  have hodd := h.half.eq_two_or_odd
  have hp := h.eq
  omega

/-- A prime that divides half of what is below a safe prime is that half. -/
theorem mod_ne_one (h : SafePrime p r) {q : ℕ} (hq : q.Prime) (hq2 : q ≠ 2) (hpq : p ≠ 2 * q + 1) :
    p % q ≠ 1 := by
  intro hmod
  have hdvd : q ∣ 2 * r := by
    have hsub : q ∣ p - 1 := (Nat.modEq_iff_dvd' h.prime.one_lt.le).mp
      (show 1 % q = p % q by rw [hmod, Nat.mod_eq_of_lt hq.one_lt])
    rwa [h.eq, Nat.add_sub_cancel] at hsub
  rcases hq.dvd_mul.mp hdvd with htwo | hhalf
  · exact hq2 ((Nat.prime_dvd_prime_iff_eq hq Nat.prime_two).mp htwo)
  · rw [(Nat.prime_dvd_prime_iff_eq hq h.half).mp hhalf] at hpq
    exact hpq h.eq

theorem mod_ne_zero (h : SafePrime p r) {q : ℕ} (hq : q.Prime) (hpq : p ≠ q) : p % q ≠ 0 := by
  intro hmod
  exact hpq ((Nat.prime_dvd_prime_iff_eq hq h.prime).mp (Nat.dvd_of_mod_eq_zero hmod)).symm

theorem mod_three (h : SafePrime p r) (hp : 7 < p) : p % 3 = 2 := by
  have hone := h.mod_ne_one Nat.prime_three (by decide) (by omega)
  have hzero := h.mod_ne_zero Nat.prime_three (by omega)
  omega

theorem isSquare_mod_five : ∀ m < 5, m ≠ 0 →
    (IsSquare ((m : ℕ) : ZMod 5) ↔ m = 1 ∨ m = 4) := by decide

theorem isSquare_mod_seven : ∀ m < 7, m ≠ 0 →
    (¬IsSquare ((m : ℕ) : ZMod 7) ↔ m = 3 ∨ m = 5 ∨ m = 6) := by decide

variable [Fact p.Prime]

theorem isSquare_two (h : SafePrime p r) (hr : r ≠ 2) : IsSquare (2 : ZMod p) ↔ p % 8 = 7 := by
  have hfour := h.mod_four hr
  rw [ZMod.exists_sq_eq_two_iff (by omega)]
  omega

/-- A prime is a square where the safe prime is none in its own residues. -/
theorem isSquare_of_mod_four {q : ℕ} [Fact q.Prime] (h : SafePrime p r) (hr : r ≠ 2)
    (hq : q % 4 = 3) (hpq : p ≠ q) : IsSquare (q : ZMod p) ↔ ¬IsSquare ((p % q : ℕ) : ZMod q) := by
  rw [ZMod.natCast_mod]
  exact ZMod.exists_sq_eq_prime_iff_of_mod_four_eq_three (h.mod_four hr) hq hpq

theorem isSquare_three (h : SafePrime p r) (hr : r ≠ 2) (hp : 7 < p) : IsSquare (3 : ZMod p) := by
  have hiff := h.isSquare_of_mod_four (q := 3) hr (by decide) (by omega)
  rw [h.mod_three hp] at hiff
  exact hiff.mpr (by decide)

theorem isSquare_five (h : SafePrime p r) (hp : 7 < p) :
    IsSquare (5 : ZMod p) ↔ p % 5 = 1 ∨ p % 5 = 4 := by
  have : Fact (Nat.Prime 5) := ⟨Nat.prime_five⟩
  have hiff := ZMod.exists_sq_eq_prime_iff_of_mod_four_eq_one (p := 5) (q := p) (by decide)
    (by omega)
  rw [← ZMod.natCast_mod] at hiff
  have hzero := h.mod_ne_zero Nat.prime_five (by omega)
  exact hiff.symm.trans (isSquare_mod_five _ (Nat.mod_lt p (by decide)) hzero)

theorem isSquare_seven (h : SafePrime p r) (hr : r ≠ 2) (hp : 7 < p) :
    IsSquare (7 : ZMod p) ↔ p % 7 = 3 ∨ p % 7 = 5 ∨ p % 7 = 6 := by
  have : Fact (Nat.Prime 7) := ⟨by decide⟩
  have hiff := h.isSquare_of_mod_four (q := 7) hr (by decide) (by omega)
  have hzero := h.mod_ne_zero (q := 7) (by decide) (by omega)
  exact hiff.trans (isSquare_mod_seven _ (Nat.mod_lt p (by decide)) hzero)

theorem isSquare_six (h : SafePrime p r) (hr : r ≠ 2) (hp : 7 < p) :
    IsSquare (6 : ZMod p) ↔ p % 24 = 19 ∨ p % 24 = 23 := by
  have hthree := h.isSquare_three hr hp
  have hne : (3 : ZMod p) ≠ 0 := by
    have hcast : ((3 : ℕ) : ZMod p) ≠ 0 := by
      rw [Ne, ZMod.natCast_eq_zero_iff]
      exact Nat.not_dvd_of_pos_of_lt (by decide) (by omega)
    exact_mod_cast hcast
  have hprod : (6 : ZMod p) = 2 * 3 := by norm_num
  have hsix : IsSquare (6 : ZMod p) ↔ IsSquare (2 : ZMod p) := by
    rw [hprod]
    constructor
    · intro hsquare
      have hdiv := hsquare.div hthree
      rwa [mul_div_cancel_right₀ _ hne] at hdiv
    · exact fun hsquare => hsquare.mul hthree
  have hfour := h.mod_four hr
  have hmod := h.mod_three hp
  rw [hsix, h.isSquare_two hr]
  omega

/-- The squares are what generates the subgroup of prime order. -/
theorem isSquare_iff_orderOf (h : SafePrime p r) {a : ZMod p} (ha : a ≠ 0) (ha1 : a ≠ 1) :
    IsSquare a ↔ orderOf a = r := by
  have hhalf : p / 2 = r := by
    have := h.eq
    omega
  rw [ZMod.euler_criterion p ha, hhalf]
  constructor
  · intro hpow
    have : Fact r.Prime := ⟨h.half⟩
    exact orderOf_eq_prime hpow ha1
  · rintro rfl
    exact pow_orderOf_eq_one a

end SafePrime
