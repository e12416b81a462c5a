import Grammers.Nesting

namespace Nesting

/-! Balanced markers as forests: what an element encloses, and what comes after it. -/

variable {ι κ α β : Type*}

inductive Forest (ι α : Type*) where
  | nil
  | leaf (a : α) (rest : Forest ι α)
  | element (i : ι) (body rest : Forest ι α)

namespace Forest

def tokens : Forest ι α → List (Token ι α)
  | nil => []
  | leaf a rest => .leaf a :: rest.tokens
  | element i body rest => .opening i :: (body.tokens ++ .closing i :: rest.tokens)

theorem balanced_tokens (f : Forest ι α) : Balanced f.tokens := by
  induction f with
  | nil => exact .nil
  | leaf a rest ih => exact .leaf a ih
  | element i body rest ihbody ihrest => exact .element i ihbody ihrest

theorem exists_of_balanced {tokens : List (Token ι α)} (h : Balanced tokens) :
    ∃ f : Forest ι α, f.tokens = tokens := by
  induction h with
  | nil => exact ⟨nil, rfl⟩
  | leaf a _ ih =>
    obtain ⟨rest, rfl⟩ := ih
    exact ⟨leaf a rest, rfl⟩
  | element i _ _ ihbody ihrest =>
    obtain ⟨body, rfl⟩ := ihbody
    obtain ⟨rest, rfl⟩ := ihrest
    exact ⟨element i body rest, rfl⟩

/-- A property of every element, by its marker and what it encloses. -/
def All (p : ι → Forest ι α → Prop) : Forest ι α → Prop
  | nil => True
  | leaf _ rest => rest.All p
  | element i body rest => p i body ∧ body.All p ∧ rest.All p

/-- A property of some element. -/
def Any (p : ι → Forest ι α → Prop) : Forest ι α → Prop
  | nil => False
  | leaf _ rest => rest.Any p
  | element i body rest => p i body ∨ body.Any p ∨ rest.Any p

/-- A property of every leaf. -/
def Leaves (p : α → Prop) : Forest ι α → Prop
  | nil => True
  | leaf a rest => p a ∧ rest.Leaves p
  | element _ body rest => body.Leaves p ∧ rest.Leaves p

section Run

variable {σ : Type*} (step : σ → Token ι α → σ)

/-- What a machine does on the tokens of a forest. -/
def run (f : Forest ι α) (s : σ) : σ := f.tokens.foldl step s

@[simp] theorem run_nil (s : σ) : (nil : Forest ι α).run step s = s := rfl

@[simp] theorem run_leaf (a : α) (rest : Forest ι α) (s : σ) :
    (leaf a rest).run step s = rest.run step (step s (.leaf a)) := rfl

@[simp] theorem run_element (i : ι) (body rest : Forest ι α) (s : σ) :
    (element i body rest).run step s =
      rest.run step (step (body.run step (step s (.opening i))) (.closing i)) := by
  simp [run, tokens, List.foldl_append]

/-- What every step keeps is kept by a forest. -/
theorem run_keeps {step : σ → Token ι α → σ} {p : σ → Prop} (hstep : ∀ s token, p s → p (step s token))
    (f : Forest ι α) {s : σ} (h : p s) : p (f.run step s) := by
  unfold run
  generalize f.tokens = tokens
  induction tokens generalizing s with
  | nil => exact h
  | cons token tokens ih => exact ih (hstep s token h)

end Run

end Forest

end Nesting
