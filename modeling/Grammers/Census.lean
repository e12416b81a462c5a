import Grammers.SwapRemove
import Mathlib.Data.List.Count

/-! Cells that hold tokens: how often a token is held as cells are added, changed and removed. -/

namespace Census

variable {α β γ : Type*} [DecidableEq β] {f : α → List β} {r : β} {xs ys : List α} {x y : α} {i : Nat}

def held (f : α → List β) (r : β) (xs : List α) : Nat := (xs.flatMap f).count r

@[simp] theorem held_nil : held f r [] = 0 := rfl

@[simp] theorem held_cons : held f r (x :: xs) = (f x).count r + held f r xs := by
  simp [held]

@[simp] theorem held_append : held f r (xs ++ ys) = held f r xs + held f r ys := by
  simp [held]

theorem held_perm (h : xs.Perm ys) : held f r xs = held f r ys := (h.flatMap_right f).count_eq r

theorem held_set (h : xs[i]? = some x) (y : α) :
    held f r (xs.set i y) + (f x).count r = held f r xs + (f y).count r := by
  induction xs generalizing i with
  | nil => simp at h
  | cons z xs ih =>
    cases i with
    | zero =>
      obtain rfl : z = x := by simpa using h
      simp only [List.set_cons_zero, held_cons]
      omega
    | succ i =>
      have := ih (i := i) (by simpa using h)
      simp only [List.set_cons_succ, held_cons]
      omega

theorem held_eraseIdx (h : xs[i]? = some x) :
    held f r (xs.eraseIdx i) + (f x).count r = held f r xs := by
  induction xs generalizing i with
  | nil => simp at h
  | cons z xs ih =>
    cases i with
    | zero =>
      obtain rfl : z = x := by simpa using h
      simp only [List.eraseIdx_cons_zero, held_cons]
      omega
    | succ i =>
      have := ih (i := i) (by simpa using h)
      simp only [List.eraseIdx_cons_succ, held_cons]
      omega

theorem held_swapRemove (h : xs[i]? = some x) :
    held f r (SwapRemove.swapRemove xs i) + (f x).count r = held f r xs := by
  rw [← held_perm (SwapRemove.swapRemove_perm h), held_cons]
  omega

theorem held_mapIdx {g : Nat → α → α} (h : ∀ i x, f (g i x) = f x) :
    held f r (xs.mapIdx g) = held f r xs := by
  induction xs generalizing g with
  | nil => rfl
  | cons z xs ih =>
    rw [List.mapIdx_cons, held_cons, held_cons, h, ih fun i x => h (i + 1) x]

theorem held_pos : 0 < held f r xs ↔ ∃ x ∈ xs, r ∈ f x := by
  rw [held, List.count_pos_iff, List.mem_flatMap]

/-- A token that is held once is held by one cell only. -/
theorem held_unique (h : held f r xs ≤ 1) {j : Nat} (hi : xs[i]? = some x) (hj : xs[j]? = some y)
    (hx : r ∈ f x) (hy : r ∈ f y) : i = j := by
  refine Classical.byContradiction fun hne => ?_
  have hboth := held_eraseIdx (f := f) (r := r) hj
  have hypos := List.count_pos_iff.mpr hy
  have hother : 0 < held f r (xs.eraseIdx j) := by
    refine held_pos.mpr ⟨x, List.mem_iff_getElem?.mpr ?_, hx⟩
    rcases Nat.lt_or_gt_of_ne hne with hlt | hgt
    · exact ⟨i, by rw [List.getElem?_eraseIdx_of_lt hlt, hi]⟩
    · refine ⟨i - 1, ?_⟩
      rw [List.getElem?_eraseIdx_of_ge (by omega), Nat.sub_add_cancel (by omega), hi]
  omega

/-- The first cell that is looked for, with its index. -/
def position (p : α → Bool) : List α → Option (Nat × α)
  | [] => none
  | x :: xs => if p x then some (0, x) else (position p xs).map fun found => (found.1 + 1, found.2)

theorem position_eq_some {p : α → Bool} (h : position p xs = some (i, x)) :
    xs[i]? = some x ∧ p x = true := by
  induction xs generalizing i with
  | nil => cases h
  | cons z xs ih =>
    rw [position] at h
    split at h
    next hz =>
      cases h
      exact ⟨rfl, hz⟩
    next =>
      obtain ⟨⟨j, y⟩, hj, heq⟩ := Option.map_eq_some_iff.mp h
      cases heq
      exact ih hj

theorem position_eq_none {p : α → Bool} (h : position p xs = none) : ∀ x ∈ xs, p x = false := by
  induction xs with
  | nil => exact fun _ hx => absurd hx List.not_mem_nil
  | cons z xs ih =>
    rw [position] at h
    split at h
    next => cases h
    next hz =>
      exact List.forall_mem_cons.mpr ⟨by simpa using hz, ih (Option.map_eq_none_iff.mp h)⟩

end Census
