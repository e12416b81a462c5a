import Mathlib.Logic.Relation

namespace LabelledPath

variable {σ α : Type*}

/-- A run of labelled steps and the labels it takes, in order. -/
inductive Path (R : σ → α → σ → Prop) : σ → List α → σ → Prop
  | nil {s} : Path R s [] s
  | cons {s t u a as} : R s a t → Path R t as u → Path R s (a :: as) u

variable {R S : σ → α → σ → Prop} {s t u : σ} {as bs : List α} {a : α}

theorem Path.append (h : Path R s as t) (h' : Path R t bs u) : Path R s (as ++ bs) u := by
  induction h with
  | nil => exact h'
  | cons hr _ ih => exact Path.cons hr (ih h')

theorem Path.single (h : R s a t) : Path R s [a] t := Path.cons h Path.nil

theorem Path.cons_iff : Path R s (a :: as) u ↔ ∃ t, R s a t ∧ Path R t as u := by
  constructor
  · intro h
    cases h with
    | cons hr hp => exact ⟨_, hr, hp⟩
  · rintro ⟨t, hr, hp⟩
    exact Path.cons hr hp

theorem Path.nil_iff : Path R s [] u ↔ u = s := by
  constructor
  · intro h
    cases h
    rfl
  · rintro rfl
    exact Path.nil

theorem Path.of_append (h : Path R s (as ++ bs) u) : ∃ t, Path R s as t ∧ Path R t bs u := by
  induction as generalizing s with
  | nil => exact ⟨s, Path.nil, h⟩
  | cons a as ih =>
    obtain ⟨t, hr, hp⟩ := Path.cons_iff.mp h
    obtain ⟨t', h1, h2⟩ := ih hp
    exact ⟨t', Path.cons hr h1, h2⟩

theorem Path.end_unique (det : ∀ s a t u, R s a t → R s a u → t = u)
    (h : Path R s as t) (h' : Path R s as u) : t = u := by
  induction h with
  | nil => exact (Path.nil_iff.mp h').symm
  | cons hr _ ih =>
    obtain ⟨v, hr', hp'⟩ := Path.cons_iff.mp h'
    exact ih (det _ _ _ _ hr hr' ▸ hp')

/-- A property kept by every step of a run holds at its end. -/
theorem Path.invariant {I : σ → Prop} (h : Path R s as t)
    (kept : ∀ s a t, I s → R s a t → I t) (hs : I s) : I t := by
  induction h with
  | nil => exact hs
  | cons hr _ ih => exact ih (kept _ _ _ hs hr)

/-- A property of the labels taken and the state reached, kept by every step of a run. -/
theorem Path.invariant_labels {I : List α → σ → Prop} (h : Path R s as t)
    (kept : ∀ as s a t, I as s → R s a t → I (as ++ [a]) t) (hs : I [] s) : I as t := by
  have hall : ∀ done, I done s → I (done ++ as) t := by
    clear hs
    induction h with
    | nil =>
      intro done hd
      rwa [List.append_nil]
    | cons hr _ ih =>
      intro done hd
      have := ih _ (kept _ _ _ _ hd hr)
      rwa [List.append_assoc, List.singleton_append] at this
  exact hall [] hs

theorem Path.mono (h : Path R s as t) (imp : ∀ s a t, R s a t → S s a t) : Path S s as t := by
  induction h with
  | nil => exact Path.nil
  | cons hr _ ih => exact Path.cons (imp _ _ _ hr) ih

end LabelledPath
