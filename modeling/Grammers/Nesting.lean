import Mathlib.Data.List.Basic

namespace Nesting

/-! Markers that open and close, with leaves between them. -/

variable {ι α : Type*}

inductive Token (ι α : Type*) where
  | opening (i : ι)
  | closing (i : ι)
  | leaf (a : α)

/-- Markers that close in the reverse of the order in which they open. -/
inductive Balanced : List (Token ι α) → Prop
  | nil : Balanced []
  | leaf (a : α) {rest : List (Token ι α)} (hrest : Balanced rest) : Balanced (.leaf a :: rest)
  | element (i : ι) {body rest : List (Token ι α)} (hbody : Balanced body) (hrest : Balanced rest) :
    Balanced (.opening i :: (body ++ .closing i :: rest))

def leaves (tokens : List (Token ι α)) : List α :=
  tokens.filterMap fun
    | .leaf a => some a
    | _ => none

/-- The markers that are open after some tokens, the last one first. -/
def run [DecidableEq ι] : List (Token ι α) → List ι → Option (List ι)
  | [], stack => some stack
  | .leaf _ :: tokens, stack => run tokens stack
  | .opening i :: tokens, stack => run tokens (i :: stack)
  | .closing _ :: _, [] => none
  | .closing i :: tokens, j :: stack => if i = j then run tokens stack else none

@[simp] theorem leaves_nil : leaves ([] : List (Token ι α)) = [] := rfl

@[simp] theorem leaves_leaf (a : α) (tokens : List (Token ι α)) :
    leaves (.leaf a :: tokens) = a :: leaves tokens := rfl

@[simp] theorem leaves_opening (i : ι) (tokens : List (Token ι α)) :
    leaves (.opening i :: tokens) = leaves tokens := rfl

@[simp] theorem leaves_closing (i : ι) (tokens : List (Token ι α)) :
    leaves (.closing i :: tokens) = leaves tokens := rfl

@[simp] theorem leaves_append (xs ys : List (Token ι α)) :
    leaves (xs ++ ys) = leaves xs ++ leaves ys := List.filterMap_append ..

theorem Balanced.append {xs ys : List (Token ι α)} (hx : Balanced xs) (hy : Balanced ys) :
    Balanced (xs ++ ys) := by
  induction hx with
  | nil => exact hy
  | leaf a _ ih => exact .leaf a ih
  | element i hbody _ _ ih =>
    rw [List.cons_append, List.append_assoc, List.cons_append]
    exact .element i hbody ih

/-- A marker opened in balanced tokens has a balanced body. -/
theorem Balanced.exists_element {tokens : List (Token ι α)} (h : Balanced tokens) {i : ι}
    (hmem : .opening i ∈ tokens) :
    ∃ before body after, tokens = before ++ .opening i :: (body ++ .closing i :: after) ∧
      Balanced body := by
  induction h with
  | nil => cases hmem
  | leaf a _ ih =>
    obtain ⟨before, body, after, heq, hbody⟩ := ih (by simpa using hmem)
    exact ⟨.leaf a :: before, body, after, by rw [heq]; rfl, hbody⟩
  | @element j inner rest hinner _ ihinner ihrest =>
    rcases List.mem_cons.mp hmem with heq | hmem
    · cases heq
      exact ⟨[], inner, rest, rfl, hinner⟩
    rcases List.mem_append.mp hmem with hmem | hmem
    · obtain ⟨before, body, after, heq, hbody⟩ := ihinner hmem
      exact ⟨.opening j :: before, body, after ++ .closing j :: rest, by simp [heq], hbody⟩
    · obtain ⟨before, body, after, heq, hbody⟩ := ihrest (by simpa using hmem)
      exact ⟨.opening j :: (inner ++ .closing j :: before), body, after, by simp [heq], hbody⟩

section Run

variable [DecidableEq ι]

theorem run_append (xs ys : List (Token ι α)) (stack : List ι) :
    run (xs ++ ys) stack = (run xs stack).bind (run ys) := by
  induction xs generalizing stack with
  | nil => rfl
  | cons x xs ih =>
    cases x with
    | leaf => exact ih stack
    | opening i => exact ih (i :: stack)
    | closing i =>
      cases stack with
      | nil => rfl
      | cons j stack =>
        rw [List.cons_append, run, run]
        split
        · exact ih stack
        · rfl

theorem run_opening (is : List ι) (tokens : List (Token ι α)) (stack : List ι) :
    run (is.map .opening ++ tokens) stack = run tokens (is.reverse ++ stack) := by
  induction is generalizing stack with
  | nil => rfl
  | cons i is ih => simp [run, ih]

theorem run_closing (is : List ι) (tokens : List (Token ι α)) (stack : List ι) :
    run (is.map .closing ++ tokens) (is ++ stack) = run tokens stack := by
  induction is with
  | nil => rfl
  | cons i is ih => simpa [run] using ih

/-- What is open at the start is closed by a first closing that no marker in between answers for. -/
theorem balanced_of_run_aux (n : Nat) : ∀ tokens : List (Token ι α), tokens.length ≤ n →
    (run tokens [] = some [] → Balanced tokens) ∧
      ∀ i stack, run tokens (i :: stack) = some [] →
        ∃ body rest, tokens = body ++ .closing i :: rest ∧ Balanced body ∧ run rest stack = some [] := by
  induction n with
  | zero =>
    intro tokens hlen
    obtain rfl := List.eq_nil_of_length_eq_zero (Nat.le_zero.mp hlen)
    exact ⟨fun _ => .nil, fun i stack h => by simp [run] at h⟩
  | succ n ih =>
    intro tokens hlen
    cases tokens with
    | nil => exact ⟨fun _ => .nil, fun i stack h => by simp [run] at h⟩
    | cons token tokens =>
      have hlen' : tokens.length ≤ n := by
        rw [List.length_cons] at hlen
        omega
      obtain ⟨hempty, hopen⟩ := ih tokens hlen'
      have helement : ∀ {i : ι} {stack : List ι}, run tokens (i :: stack) = some [] →
          ∃ body rest, tokens = body ++ .closing i :: rest ∧ Balanced body ∧
            rest.length ≤ n ∧ run rest stack = some [] := by
        intro i stack h
        obtain ⟨body, rest, heq, hbody, hrest⟩ := hopen i stack h
        refine ⟨body, rest, heq, hbody, ?_, hrest⟩
        rw [heq, List.length_append, List.length_cons] at hlen'
        omega
      cases token with
      | leaf a =>
        refine ⟨fun h => .leaf a (hempty h), fun i stack h => ?_⟩
        obtain ⟨body, rest, heq, hbody, hrest⟩ := hopen i stack h
        exact ⟨.leaf a :: body, rest, by rw [heq]; rfl, .leaf a hbody, hrest⟩
      | closing j =>
        refine ⟨fun h => by simp [run] at h, fun i stack h => ?_⟩
        rw [run] at h
        split at h
        next heq =>
          subst heq
          exact ⟨[], tokens, rfl, .nil, h⟩
        next => cases h
      | opening j =>
        refine ⟨fun h => ?_, fun i stack h => ?_⟩
        · obtain ⟨body, rest, heq, hbody, hle, hrest⟩ := helement h
          rw [heq]
          exact .element j hbody ((ih rest hle).1 hrest)
        · obtain ⟨body, rest, heq, hbody, hle, hrest⟩ := helement h
          obtain ⟨body', rest', heq', hbody', hrest'⟩ := (ih rest hle).2 i stack hrest
          exact ⟨.opening j :: (body ++ .closing j :: body'), rest', by simp [heq, heq'],
            .element j hbody hbody', hrest'⟩

theorem balanced_of_run {tokens : List (Token ι α)} (h : run tokens [] = some []) :
    Balanced tokens :=
  (balanced_of_run_aux tokens.length tokens (Nat.le_refl _)).1 h

end Run

end Nesting
