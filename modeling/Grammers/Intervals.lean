import Mathlib.Data.List.Basic
import Grammers.Nesting

namespace Nesting

/-! Markers at the ends of numbered intervals: at one place the intervals that end there are closed
before those that start there are opened, the later ones first and last. -/

variable {α : Type*}

/-- In a list where what satisfies `p` never comes after what satisfies `q`. -/
theorem filter_or_eq_append {β : Type*} {p q : β → Bool} {l : List β}
    (h : l.Pairwise fun x y => ¬(q x = true ∧ p y = true)) (hpq : ∀ x ∈ l, ¬(p x = true ∧ q x = true)) :
    l.filter (fun x => p x || q x) = l.filter p ++ l.filter q := by
  induction l with
  | nil => rfl
  | cons x l ih =>
    obtain ⟨hx, hl⟩ := List.pairwise_cons.mp h
    have ih := ih hl fun y hy => hpq y (List.mem_cons_of_mem _ hy)
    by_cases hp : p x = true
    · have hq : ¬q x = true := fun hq => hpq x List.mem_cons_self ⟨hp, hq⟩
      rw [List.filter_cons_of_pos (by simp [hp]), List.filter_cons_of_pos hp,
        List.filter_cons_of_neg hq, ih, List.cons_append]
    · by_cases hq : q x = true
      · have hnone : l.filter p = [] :=
          List.filter_eq_nil_iff.mpr fun y hy hpy => hx y hy ⟨hq, hpy⟩
        rw [List.filter_cons_of_pos (by simp [hq]), List.filter_cons_of_neg hp,
          List.filter_cons_of_pos hq, ih, hnone, List.nil_append, List.nil_append]
      · rw [List.filter_cons_of_neg (by simp [hp, hq]), List.filter_cons_of_neg hp,
          List.filter_cons_of_neg hq, ih]

/-- Numbered intervals, none of them empty, any two of them apart or the later one within. -/
structure Intervals where
  count : Nat
  start : Nat → Int
  stop : Nat → Int
  nonEmpty : ∀ i < count, start i < stop i
  nested : ∀ i j, i < j → j < count →
    (start i ≤ start j ∧ stop j ≤ stop i) ∨ stop i ≤ start j ∨ stop j ≤ start i

namespace Intervals

variable (m : Intervals)

def closingAt (place : Int) : List Nat := (List.range m.count).reverse.filter fun i => m.stop i = place

def openingAt (place : Int) : List Nat := (List.range m.count).filter fun i => m.start i = place

def tokensAt (place : Int) : List (Token Nat α) :=
  (m.closingAt place).map .closing ++ (m.openingAt place).map .opening

/-- The intervals that have been opened before a place and not closed before it, the last first. -/
def openAt (place : Int) : List Nat :=
  (List.range m.count).reverse.filter fun i => m.start i < place ∧ place ≤ m.stop i

theorem pairwise_reverse_range {R : Nat → Nat → Prop} {n : Nat}
    (h : ∀ i j, i < j → j < n → R j i) : (List.range n).reverse.Pairwise R := by
  rw [List.pairwise_reverse]
  exact List.pairwise_lt_range.imp_of_mem fun ha hb hlt => h _ _ hlt (List.mem_range.mp hb)

/-- Those that end at a place are on top of those that go on. -/
theorem openAt_eq_append (place : Int) :
    m.openAt place = m.closingAt place ++
      (List.range m.count).reverse.filter fun i => m.start i < place ∧ place < m.stop i := by
  have hsplit : m.openAt place = (List.range m.count).reverse.filter
      fun i => decide (m.stop i = place) || decide (m.start i < place ∧ place < m.stop i) := by
    refine List.filter_congr fun i hi => ?_
    have := m.nonEmpty i (by simpa using hi)
    rw [Bool.eq_iff_iff]
    simp only [decide_eq_true_eq, Bool.or_eq_true]
    omega
  rw [hsplit, filter_or_eq_append, closingAt]
  · refine pairwise_reverse_range fun i j hlt hj => ?_
    have := m.nested i j hlt hj
    have := m.nonEmpty i (by omega)
    simp only [decide_eq_true_eq]
    omega
  · intro i _
    simp only [decide_eq_true_eq]
    omega

/-- Those that start at a place are put on top of those that go on. -/
theorem openAt_succ (place : Int) :
    m.openAt (place + 1) = (m.openingAt place).reverse ++
      (List.range m.count).reverse.filter fun i => m.start i < place ∧ place < m.stop i := by
  have hsplit : m.openAt (place + 1) = (List.range m.count).reverse.filter
      fun i => decide (m.start i = place) || decide (m.start i < place ∧ place < m.stop i) := by
    refine List.filter_congr fun i hi => ?_
    have := m.nonEmpty i (by simpa using hi)
    rw [Bool.eq_iff_iff]
    simp only [decide_eq_true_eq, Bool.or_eq_true]
    omega
  rw [hsplit, filter_or_eq_append, openingAt, List.filter_reverse]
  · refine pairwise_reverse_range fun i j hlt hj => ?_
    have := m.nested i j hlt hj
    have := m.nonEmpty i (by omega)
    simp only [decide_eq_true_eq]
    omega
  · intro i _
    simp only [decide_eq_true_eq]
    omega

theorem run_tokensAt (place : Int) (rest : List (Token Nat α)) :
    run (m.tokensAt place ++ rest) (m.openAt place) = run rest (m.openAt (place + 1)) := by
  rw [tokensAt, List.append_assoc, openAt_eq_append, run_closing, run_opening, openAt_succ]

theorem openAt_eq_nil {place : Int} (h : ∀ i < m.count, place ≤ m.start i ∨ m.stop i < place) :
    m.openAt place = [] := by
  refine List.filter_eq_nil_iff.mpr fun i hi => ?_
  have := h i (by simpa using hi)
  simp only [decide_eq_true_eq]
  omega

theorem mem_tokensAt_opening {place : Int} {i : Nat} :
    .opening i ∈ (m.tokensAt place : List (Token Nat α)) ↔ i < m.count ∧ m.start i = place := by
  simp [tokensAt, closingAt, openingAt]

theorem mem_tokensAt_closing {place : Int} {i : Nat} :
    .closing i ∈ (m.tokensAt place : List (Token Nat α)) ↔ i < m.count ∧ m.stop i = place := by
  simp [tokensAt, closingAt, openingAt]

@[simp] theorem leaves_tokensAt (place : Int) : leaves (m.tokensAt place : List (Token Nat α)) = [] := by
  simp [leaves, tokensAt, List.filterMap_append, List.filterMap_map]

end Intervals

end Nesting
