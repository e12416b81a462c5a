import Mathlib.Data.List.Induction
import Mathlib.Data.Nat.Init

namespace FailureStreak

/-- How many outcomes at the end are failures. -/
def streak (outcomes : List Bool) : Nat :=
  outcomes.foldl (fun count failed => if failed then count + 1 else 0) 0

/-- The last `limit` outcomes are failures, and at none of them it was given up before. -/
def GivenUp (limit : Nat) (outcomes : List Bool) : Prop :=
  ∃ before, outcomes = before ++ List.replicate limit true ∧
    ∀ n, before.length < n → n < outcomes.length → ¬GivenUp limit (outcomes.take n)
  termination_by outcomes.length
  decreasing_by
    rw [List.length_take]
    omega

/-- A count of failures that starts again once it has reached its limit. -/
def counted (limit count : Nat) (failed : Bool) : Nat :=
  if failed && decide (count + 1 < limit) then count + 1 else 0

variable {limit : Nat} {outcomes : List Bool}

theorem streak_concat (outcomes : List Bool) (failed : Bool) :
    streak (outcomes ++ [failed]) = if failed then streak outcomes + 1 else 0 := by
  simp only [streak, List.foldl_append, List.foldl_cons, List.foldl_nil]

theorem streak_append_replicate (before : List Bool) (n : Nat) :
    streak (before ++ List.replicate n true) = streak before + n := by
  induction n with
  | zero => simp
  | succ n ih =>
    rw [List.replicate_succ', ← List.append_assoc, streak_concat, if_pos rfl, ih, Nat.add_assoc]

theorem exists_streak (outcomes : List Bool) :
    ∃ before, outcomes = before ++ List.replicate (streak outcomes) true := by
  induction outcomes using List.reverseRecOn with
  | nil => exact ⟨[], rfl⟩
  | append_singleton outcomes failed ih =>
    obtain ⟨before, hbefore⟩ := ih
    cases failed with
    | false => exact ⟨outcomes ++ [false], by simp [streak_concat]⟩
    | true =>
      refine ⟨before, ?_⟩
      rw [streak_concat, if_pos rfl, List.replicate_succ', ← List.append_assoc, ← hbefore]

theorem take_replicate (before : List Bool) {n : Nat} (h : n ≤ limit) :
    (before ++ List.replicate limit true).take (before.length + n) =
      before ++ List.replicate n true := by
  rw [List.take_length_add_append, List.take_replicate, Nat.min_eq_left h]

theorem GivenUp.le_length (h : GivenUp limit outcomes) : limit ≤ outcomes.length := by
  rw [GivenUp] at h
  obtain ⟨before, rfl, -⟩ := h
  rw [List.length_append, List.length_replicate]
  exact Nat.le_add_left _ _

theorem givenUp_iff (hlimit : 0 < limit) (outcomes : List Bool) :
    GivenUp limit outcomes ↔ 0 < streak outcomes ∧ limit ∣ streak outcomes := by
  induction hn : outcomes.length using Nat.strongRecOn generalizing outcomes with
  | ind length ih =>
  subst hn
  rw [GivenUp]
  constructor
  · rintro ⟨before, heq, hnone⟩
    have hstreak : streak outcomes = streak before + limit := by
      rw [heq, streak_append_replicate]
    have hlength : outcomes.length = before.length + limit := by
      rw [heq, List.length_append, List.length_replicate]
    have hmod := Nat.mod_lt (streak before) hlimit
    have hdvd : limit ∣ streak before := by
      -- otherwise it was given up when the streak was a multiple of the limit before
      by_contra hnot
      have hpos : 0 < streak before % limit :=
        Nat.pos_of_ne_zero fun hzero => hnot (Nat.dvd_of_mod_eq_zero hzero)
      have htake := take_replicate before (Nat.sub_le limit (streak before % limit))
      rw [← heq] at htake
      refine hnone (before.length + (limit - streak before % limit)) (by omega) (by omega) ?_
      rw [ih _ (by rw [List.length_take]; omega) _ rfl, htake, streak_append_replicate]
      refine ⟨by omega, ?_⟩
      have hdiv := Nat.div_add_mod (streak before) limit
      have hsum : streak before + (limit - streak before % limit) =
          limit * (streak before / limit) + limit := by omega
      rw [hsum]
      exact Nat.dvd_add (Nat.dvd_mul_right _ _) (Nat.dvd_refl _)
    rw [hstreak]
    exact ⟨by omega, Nat.dvd_add hdvd (Nat.dvd_refl _)⟩
  · rintro ⟨hpos, hdvd⟩
    obtain ⟨front, hfront⟩ := exists_streak outcomes
    have hle := Nat.le_of_dvd hpos hdvd
    have hsplit : List.replicate (streak outcomes) true =
        List.replicate (streak outcomes - limit) true ++ List.replicate limit true := by
      rw [List.replicate_append_replicate, Nat.sub_add_cancel hle]
    rw [hsplit, ← List.append_assoc] at hfront
    refine ⟨_, hfront, fun n hlater hn hgiven => ?_⟩
    generalize hbefore : front ++ List.replicate (streak outcomes - limit) true = before
      at hfront hlater
    have hstreak : streak outcomes = streak before + limit := by
      conv_lhs => rw [hfront, streak_append_replicate]
    have hlength : outcomes.length = before.length + limit := by
      conv_lhs => rw [hfront, List.length_append, List.length_replicate]
    have htake := take_replicate before (show n - before.length ≤ limit by omega)
    rw [← hfront, Nat.add_sub_cancel' (Nat.le_of_lt hlater)] at htake
    rw [ih _ (by rw [List.length_take]; omega) _ rfl, htake, streak_append_replicate] at hgiven
    have hbefore : limit ∣ streak before := by
      rw [hstreak] at hdvd
      exact (Nat.dvd_add_left (Nat.dvd_refl _)).mp hdvd
    have hrest := Nat.le_of_dvd (by omega) ((Nat.dvd_add_right hbefore).mp hgiven.2)
    omega

theorem mod_succ_streak (hlimit : 0 < limit) (count : Nat) :
    (count + 1) % limit = if count % limit + 1 < limit then count % limit + 1 else 0 := by
  have hmod := Nat.mod_lt count hlimit
  rw [← Nat.mod_add_mod]
  split
  next hlt => exact Nat.mod_eq_of_lt hlt
  next hle =>
    have heq : count % limit + 1 = limit := by omega
    rw [heq, Nat.mod_self]

theorem counted_streak (hlimit : 0 < limit) (outcomes : List Bool) (failed : Bool) :
    counted limit (streak outcomes % limit) failed = streak (outcomes ++ [failed]) % limit := by
  rw [streak_concat]
  cases failed with
  | false => exact (Nat.zero_mod limit).symm
  | true => simp only [counted, Bool.true_and, decide_eq_true_eq, if_true, mod_succ_streak hlimit]

/-- The count alone tells at which failure it is given up. -/
theorem givenUp_concat (hlimit : 0 < limit) (outcomes : List Bool) (failed : Bool) :
    GivenUp limit (outcomes ++ [failed]) ↔
      failed = true ∧ limit ≤ streak outcomes % limit + 1 := by
  rw [givenUp_iff hlimit, streak_concat]
  cases failed with
  | false => simp
  | true =>
    rw [if_pos rfl, Nat.dvd_iff_mod_eq_zero, mod_succ_streak hlimit]
    constructor
    · rintro ⟨-, hzero⟩
      refine ⟨rfl, Nat.not_lt.mp fun hlt => ?_⟩
      rw [if_pos hlt] at hzero
      omega
    · rintro ⟨-, hle⟩
      exact ⟨Nat.succ_pos _, if_neg (Nat.not_lt.mpr hle)⟩

end FailureStreak
