import Mathlib.FieldTheory.Finite.Basic
import Grammers.SafePrime
import Grammers.TwoFactorAuth

namespace Grammers

namespace TwoFactorAuth

variable {p r : ℕ} {g : Int32}

theorem generator_cases (h : 2 ≤ g) (h' : g ≤ 7) :
    g = 2 ∨ g = 3 ∨ g = 4 ∨ g = 5 ∨ g = 6 ∨ g = 7 := by
  rw [Int32.le_iff_toInt_le] at h h'
  change 2 ≤ g.toInt at h
  change g.toInt ≤ 7 at h'
  have hcases : g.toInt = 2 ∨ g.toInt = 3 ∨ g.toInt = 4 ∨ g.toInt = 5 ∨ g.toInt = 6 ∨
      g.toInt = 7 := by omega
  simp only [← Int32.toInt_inj]
  exact hcases

/-- The remainders that are accepted are those of the primes that a generator is a square of. -/
theorem validSubgroup_iff [Fact p.Prime] (h : SafePrime p r) (hr : r ≠ 2) (hp : 7 < p) (hg : 2 ≤ g)
    (hg' : g ≤ 7) : validSubgroup p g = true ↔ IsSquare ((g.toInt : ℤ) : ZMod p) := by
  rcases generator_cases hg hg' with rfl | rfl | rfl | rfl | rfl | rfl
  · rw [show ((Int32.toInt 2 : ℤ) : ZMod p) = 2 from Int.cast_ofNat 2]
    exact decide_eq_true_iff.trans (h.isSquare_two hr).symm
  · rw [show ((Int32.toInt 3 : ℤ) : ZMod p) = 3 from Int.cast_ofNat 3]
    exact iff_of_true (decide_eq_true (h.mod_three hp)) (h.isSquare_three hr hp)
  · rw [show ((Int32.toInt 4 : ℤ) : ZMod p) = 4 from Int.cast_ofNat 4]
    exact iff_of_true rfl ⟨2, by norm_num⟩
  · rw [show ((Int32.toInt 5 : ℤ) : ZMod p) = 5 from Int.cast_ofNat 5]
    exact decide_eq_true_iff.trans (h.isSquare_five hp).symm
  · rw [show ((Int32.toInt 6 : ℤ) : ZMod p) = 6 from Int.cast_ofNat 6]
    exact decide_eq_true_iff.trans (h.isSquare_six hr hp).symm
  · rw [show ((Int32.toInt 7 : ℤ) : ZMod p) = 7 from Int.cast_ofNat 7]
    exact decide_eq_true_iff.trans (h.isSquare_seven hr hp).symm

/-- A generator is between one and the prime number, so that it is neither zero nor one. -/
theorem generator_ne (hp : 7 < p) (hg : 2 ≤ g) (hg' : g ≤ 7) :
    ((g.toInt : ℤ) : ZMod p) ≠ 0 ∧ ((g.toInt : ℤ) : ZMod p) ≠ 1 := by
  rw [Int32.le_iff_toInt_le] at hg hg'
  change 2 ≤ g.toInt at hg
  change g.toInt ≤ 7 at hg'
  constructor
  · rw [Ne, ZMod.intCast_zmod_eq_zero_iff_dvd]
    intro hdvd
    have := Int.le_of_dvd (by omega) hdvd
    omega
  · intro hone
    have hsub : ((g.toInt - 1 : ℤ) : ZMod p) = 0 := by
      push_cast
      rw [hone, sub_self]
    rw [ZMod.intCast_zmod_eq_zero_iff_dvd] at hsub
    have := Int.le_of_dvd (by omega) hsub
    omega

/-- The subgroup of prime order is generated by a number that is a unit of that order. -/
theorem card_zpowers_iff [Fact p.Prime] {a : ZMod p} (ha : a ≠ 0) :
    (∃ u : (ZMod p)ˣ, (u : ZMod p) = a ∧ Nat.card (Subgroup.zpowers u) = r) ↔ orderOf a = r := by
  constructor
  · rintro ⟨u, rfl, hcard⟩
    rwa [Nat.card_zpowers, ← orderOf_units] at hcard
  · intro horder
    refine ⟨Units.mk0 a ha, rfl, ?_⟩
    rwa [Nat.card_zpowers, ← orderOf_units]

/-- A safe prime and a generator are accepted if the generator is a square, and then it generates
the subgroup of prime order. -/
theorem generator_check_is_residuosity (safePrimeCheck : Nat → Option Bool) :
    (∀ p r : ℕ, ∀ g : Int32, SafePrime p r → r ≠ 2 → 7 < p → 2 ≤ g → g ≤ 7 →
      (validSubgroup p g = true ↔
        ((g.toInt : ℤ) : ZMod p) ≠ 0 ∧ IsSquare ((g.toInt : ℤ) : ZMod p)) ∧
      (validSubgroup p g = true ↔ ∃ u : (ZMod p)ˣ,
        (u : ZMod p) = ((g.toInt : ℤ) : ZMod p) ∧ Nat.card (Subgroup.zpowers u) = r)) ∧
    ((∀ n, safePrimeCheck n = some true ↔ ∃ r, SafePrime n r) →
      ∀ (p : Bytes) (r : ℕ) (g : Int32), SafePrime (BigEndian.ofBytes p) r →
        checkPPrimeAndSubgroup safePrimeCheck p g = validSubgroup (BigEndian.ofBytes p) g) ∧
    ∀ (p : Bytes) (g : Int32), ¬(2 ≤ g ∧ g ≤ 7) → checkPAndG safePrimeCheck p g = false := by
  refine ⟨fun p r g h hr hp hg hg' => ?_, fun hcheck p r g h => ?_, fun p g hg => ?_⟩
  · have : Fact p.Prime := ⟨h.prime⟩
    obtain ⟨hzero, hone⟩ := generator_ne hp hg hg'
    have hsquare := validSubgroup_iff h hr hp hg hg'
    refine ⟨hsquare.trans ⟨fun hs => ⟨hzero, hs⟩, And.right⟩, ?_⟩
    rw [card_zpowers_iff hzero, ← h.isSquare_iff_orderOf hzero hone]
    exact hsquare
  · simp only [checkPPrimeAndSubgroup, (hcheck _).mpr ⟨r, h⟩, Option.getD_some, Bool.or_true,
      Bool.and_true]
  · simp [checkPAndG, hg]

theorem generator_check_is_residuosity_two :
    IsSquare (((2 : Int32).toInt : ℤ) : ZMod 23) ∧ checkPAndG (fun _ => none) [] 8 = false := by
  have hsafe : SafePrime 23 11 := ⟨by decide, by decide, rfl⟩
  obtain ⟨hsquare, -, houtside⟩ := generator_check_is_residuosity fun _ => none
  exact ⟨((hsquare 23 11 2 hsafe (by decide) (by decide) (by decide) (by decide)).1.mp rfl).2,
    houtside [] 8 (by decide)⟩

end TwoFactorAuth

end Grammers
