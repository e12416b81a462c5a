import Mathlib.Data.List.Basic

namespace Mutex

/-! Tasks that enter a section of their own one at a time, each through one lock. -/

variable {φ σ : Type*} {inside : φ → Bool} {lock : Option Nat} {tasks : List φ} {i j : Nat}
  {x y : φ}

/-- The lock names the task that is inside. -/
def Exclusive (inside : φ → Bool) (lock : Option Nat) (tasks : List φ) : Prop :=
  ∀ (i : Nat) (x : φ), tasks[i]? = some x → (inside x = true ↔ lock = some i)

/-- The lock once the task `i` has gone from `x` to `y`. -/
def pass (inside : φ → Bool) (lock : Option Nat) (i : Nat) (x y : φ) : Option Nat :=
  if inside y then some i else if inside x then none else lock

theorem exclusive_none (h : ∀ x ∈ tasks, inside x = false) : Exclusive inside none tasks := by
  intro i x hx
  rw [h x (List.mem_of_getElem? hx)]
  exact ⟨nofun, nofun⟩

theorem Exclusive.other (h : Exclusive inside lock tasks) (hx : tasks[i]? = some x)
    (hin : inside x = true) (hy : tasks[j]? = some y) (hne : j ≠ i) : inside y = false := by
  rw [Bool.eq_false_iff]
  intro hj
  have := (h j y hy).mp hj
  rw [(h i x hx).mp hin] at this
  exact hne (Option.some.inj this).symm

/-- A task that comes in finds the lock free. -/
theorem Exclusive.set (h : Exclusive inside lock tasks) (hx : tasks[i]? = some x)
    (enters : inside x = false → inside y = true → lock = none) :
    Exclusive inside (pass inside lock i x y) (tasks.set i y) := by
  intro j z hz
  by_cases hji : i = j
  · subst hji
    rw [List.getElem?_set_self (List.getElem?_eq_some_iff.mp hx).1] at hz
    cases hz
    unfold pass
    cases hy : inside y with
    | true => simp
    | false =>
      cases hin : inside x with
      | true => simp
      | false => simpa [hin] using h i x hx
  · rw [List.getElem?_set_ne hji] at hz
    unfold pass
    cases hy : inside y with
    | true =>
      cases hin : inside x with
      | true => simpa [(h i x hx).mp hin] using h j z hz
      | false => simpa [enters hin hy, hji] using h j z hz
    | false =>
      cases hin : inside x with
      | true => simp [h.other hx hin hz (Ne.symm hji)]
      | false => simpa using h j z hz

/-- What every task says of a shared state that only the task inside changes: it is enough that the
one that steps is right again, and that those outside do not mind. -/
theorem Exclusive.frame {A : σ → φ → Prop} {s t : σ} (h : Exclusive inside lock tasks)
    (all : ∀ (j : Nat) (z : φ), tasks[j]? = some z → A s z) (hx : tasks[i]? = some x) (hy : A t y)
    (hchange : t = s ∨ inside x = true) (stable : ∀ z, inside z = false → A s z → A t z) :
    ∀ (j : Nat) (z : φ), (tasks.set i y)[j]? = some z → A t z := by
  intro j z hz
  by_cases hji : i = j
  · subst hji
    rw [List.getElem?_set_self (List.getElem?_eq_some_iff.mp hx).1] at hz
    cases hz
    exact hy
  · rw [List.getElem?_set_ne hji] at hz
    rcases hchange with rfl | hin
    · exact all j z hz
    · exact stable z (h.other hx hin hz (Ne.symm hji)) (all j z hz)

end Mutex
