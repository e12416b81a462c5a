namespace StateError

variable {σ ε α β : Type} {m : EStateM ε σ α} {k : α → EStateM ε σ β}

theorem bind_eq_ok {s s'' : σ} {b : β} :
    (m >>= k) s = .ok b s'' ↔ ∃ a s', m s = .ok a s' ∧ k a s' = .ok b s'' := by
  simp only [Bind.bind, EStateM.bind]
  cases m s with
  | error e s' => simp
  | ok a s' =>
    constructor
    · exact fun h => ⟨a, s', rfl, h⟩
    · rintro ⟨_, _, hr, h⟩
      cases hr
      exact h

theorem get_eq (s : σ) : (get : EStateM ε σ σ) s = .ok s s := rfl

theorem bind_of_ok {s s' : σ} {a : α} (h : m s = .ok a s') : (m >>= k) s = k a s' := by
  simp only [Bind.bind, EStateM.bind, h]

theorem bind_eq_error {s s'' : σ} {e : ε} : (m >>= k) s = .error e s'' ↔
    m s = .error e s'' ∨ ∃ a s', m s = .ok a s' ∧ k a s' = .error e s'' := by
  simp only [Bind.bind, EStateM.bind]
  cases m s with
  | error e' s' => simp
  | ok a s' =>
    constructor
    · exact fun h => Or.inr ⟨a, s', rfl, h⟩
    · rintro (h | ⟨_, _, hr, h⟩)
      · cases h
      · cases hr
        exact h

/-- The state an action ends in, whether it succeeds or fails. -/
def final : EStateM.Result ε σ α → σ
  | .ok _ s => s
  | .error _ s => s

/-- An action leads from a state to one that is related to it. -/
def Moves (R : σ → σ → Prop) (m : EStateM ε σ α) : Prop := ∀ s, R s (final (m s))

namespace Moves

variable {R R' R'' : σ → σ → Prop}

theorem pure {a : α} (h : ∀ s, R s s) : Moves R (Pure.pure a : EStateM ε σ α) := h

theorem throw {e : ε} (h : ∀ s, R s s) : Moves R (throw e : EStateM ε σ α) := h

theorem modify {f : σ → σ} (h : ∀ s, R s (f s)) : Moves R (modify f : EStateM ε σ Unit) := h

theorem bind (h : Moves R m) (h' : ∀ a, Moves R' (k a)) (hfail : ∀ a b, R a b → R'' a b)
    (hcomp : ∀ a b c, R a b → R' b c → R'' a c) : Moves R'' (m >>= k) := by
  intro s
  have hm := h s
  simp only [Bind.bind, EStateM.bind]
  cases hr : m s with
  | ok a s' =>
    rw [hr] at hm
    exact hcomp _ _ _ hm (h' a s')
  | error e s' =>
    rw [hr] at hm
    exact hfail _ _ hm

theorem get {k : σ → EStateM ε σ β} (h : ∀ s, Moves R (k s)) : Moves R (MonadState.get >>= k) :=
  fun s => h s s

theorem of_ok {s s' : σ} {a : α} (h : Moves R m) (hr : m s = .ok a s') : R s s' := by
  have := h s
  rwa [hr] at this

theorem of_error {s s' : σ} {e : ε} (h : Moves R m) (hr : m s = .error e s') : R s s' := by
  have := h s
  rwa [hr] at this

theorem mono (h : Moves R m) (hr : ∀ a b, R a b → R' a b) : Moves R' m := fun s => hr _ _ (h s)

end Moves

/-- An action that never ends with an error. -/
def Avoids (e : ε) (m : EStateM ε σ α) : Prop := ∀ s s', m s ≠ .error e s'

namespace Avoids

variable {e : ε}

theorem pure (a : α) : Avoids e (Pure.pure a : EStateM ε σ α) := nofun

theorem throw {e' : ε} (h : e' ≠ e) : Avoids e (throw e' : EStateM ε σ α) := by
  intro s s' hr
  exact h (EStateM.Result.error.inj hr).1

theorem modify (f : σ → σ) : Avoids e (modify f : EStateM ε σ Unit) := nofun

theorem bind (h : Avoids e m) (h' : ∀ a, Avoids e (k a)) : Avoids e (m >>= k) := by
  intro s s' hr
  rcases bind_eq_error.mp hr with hfail | ⟨a, t, -, hfail⟩
  · exact h s s' hfail
  · exact h' a t s' hfail

theorem get {k : σ → EStateM ε σ β} (h : ∀ s, Avoids e (k s)) : Avoids e (MonadState.get >>= k) :=
  fun s => h s s

theorem ite {p : Prop} [Decidable p] {m' : EStateM ε σ α} (h : Avoids e m) (h' : Avoids e m') :
    Avoids e (if p then m else m') := by
  split
  · exact h
  · exact h'

end Avoids

end StateError
