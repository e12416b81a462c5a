import Mathlib.Data.List.Basic

namespace Latest

/-! The last entry of a list that satisfies a predicate, changed or removed. -/

variable {α : Type*} {p : α → Bool} {f : α → Option α}

def update (p : α → Bool) (f : α → Option α) : List α → List α
  | [] => []
  | x :: xs =>
    if xs.any p then x :: update p f xs
    else if p x then (f x).toList ++ xs
    else x :: xs

theorem update_of_none {xs : List α} (h : ∀ x ∈ xs, p x = false) : update p f xs = xs := by
  induction xs with
  | nil => rfl
  | cons x xs ih =>
    obtain ⟨hx, hxs⟩ := List.forall_mem_cons.mp h
    have hany : xs.any p = false := List.any_eq_false.mpr fun y hy => by simp [hxs y hy]
    rw [update, hany, hx]
    rfl

theorem update_append {x : α} {ys : List α} (xs : List α) (hx : p x = true)
    (h : ∀ y ∈ ys, p y = false) : update p f (xs ++ x :: ys) = xs ++ ((f x).toList ++ ys) := by
  induction xs with
  | nil =>
    have hany : ys.any p = false := List.any_eq_false.mpr fun y hy => by simp [h y hy]
    rw [List.nil_append, List.nil_append, update, hany, hx]
    rfl
  | cons z xs ih =>
    have hany : (xs ++ x :: ys).any p = true := List.any_eq_true.mpr ⟨x, by simp, hx⟩
    rw [List.cons_append, update, hany, if_pos rfl, ih]
    rfl

theorem exists_latest (p : α → Bool) (xs : List α) :
    (∀ x ∈ xs, p x = false) ∨
      ∃ before x after, xs = before ++ x :: after ∧ p x = true ∧ ∀ y ∈ after, p y = false := by
  induction xs with
  | nil => exact Or.inl nofun
  | cons x xs ih =>
    rcases ih with hnone | ⟨before, y, after, rfl, hy, hafter⟩
    · by_cases hx : p x = true
      · exact Or.inr ⟨[], x, xs, rfl, hx, hnone⟩
      · exact Or.inl (List.forall_mem_cons.mpr ⟨by simpa using hx, hnone⟩)
    · exact Or.inr ⟨x :: before, y, after, rfl, hy, hafter⟩

/-- An entry that is left as it is. -/
theorem mem_update {xs : List α} {x : α} (hmem : x ∈ xs) (h : p x = true → f x = some x) :
    x ∈ update p f xs := by
  induction xs with
  | nil => cases hmem
  | cons y xs ih =>
    rw [update]
    rcases List.mem_cons.mp hmem with rfl | hmem
    · by_cases hany : xs.any p = true
      · rw [if_pos hany]
        exact List.mem_cons_self
      · rw [if_neg hany]
        by_cases hx : p x = true
        · rw [if_pos hx, h hx]
          exact List.mem_cons_self
        · rw [if_neg hx]
          exact List.mem_cons_self
    · by_cases hany : xs.any p = true
      · rw [if_pos hany]
        exact List.mem_cons_of_mem _ (ih hmem)
      · rw [if_neg hany]
        by_cases hy : p y = true
        · rw [if_pos hy]
          exact List.mem_append_right _ hmem
        · rw [if_neg hy]
          exact List.mem_cons_of_mem _ hmem

/-- An entry behind which there is another one that is left as it is, selected wherever the first
one is. -/
theorem sublist_update {xs : List α} {x y : α} (hsub : [x, y].Sublist xs)
    (hselect : p x = true → p y = true) (hkeep : p y = true → f y = some y) :
    [x, y].Sublist (update p f xs) := by
  induction xs with
  | nil => cases hsub
  | cons z xs ih =>
    rw [update]
    cases hsub with
    | cons _ hsub =>
      by_cases hany : xs.any p = true
      · rw [if_pos hany]
        exact (ih hsub).cons z
      · rw [if_neg hany]
        by_cases hz : p z = true
        · rw [if_pos hz]
          exact hsub.trans (List.sublist_append_right _ _)
        · rw [if_neg hz]
          exact hsub.cons z
    | cons_cons _ hsub =>
      have hmem : y ∈ xs := List.singleton_sublist.mp hsub
      by_cases hany : xs.any p = true
      · rw [if_pos hany]
        exact (List.singleton_sublist.mpr (mem_update hmem hkeep)).cons_cons x
      · have hx : ¬p x = true := fun hx => hany (List.any_eq_true.mpr ⟨y, hmem, hselect hx⟩)
        rw [if_neg hany, if_neg hx]
        exact hsub.cons_cons x

end Latest
