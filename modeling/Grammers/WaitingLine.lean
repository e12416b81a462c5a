import Mathlib.Data.List.Nodup

namespace WaitingLine

variable {κ : Type*} [DecidableEq κ] {p : κ → Bool} {queue queue' : List κ} {c f k : κ}

/-- The keys of one kind that a queue holds before a given key. -/
def before (p : κ → Bool) (queue : List κ) (c : κ) : List κ :=
  (queue.takeWhile (· ≠ c)).filter p

theorem before_cons_self (p : κ → Bool) (queue : List κ) (c : κ) : before p (c :: queue) c = [] := by
  simp [before]

theorem before_cons_of_ne (h : k ≠ c) : before p (k :: queue) c =
    if p k then k :: before p queue c else before p queue c := by
  simp [before, h, List.filter_cons]

/-- What is added behind a key does not delay it. -/
theorem before_append (hc : c ∈ queue) (more : List κ) :
    before p (queue ++ more) c = before p queue c := by
  induction queue with
  | nil => simp at hc
  | cons a queue ih =>
    rw [List.cons_append]
    by_cases ha : a = c
    · subst ha
      rw [before_cons_self, before_cons_self]
    · have hm : c ∈ queue := (List.mem_cons.mp hc).resolve_left (Ne.symm ha)
      rw [before_cons_of_ne ha, before_cons_of_ne ha, ih hm]

theorem before_of_isPrefix (h : queue <+: queue') (hc : c ∈ queue) :
    before p queue' c = before p queue c := by
  obtain ⟨more, rfl⟩ := h
  exact before_append hc more

/-- Taking out a key of another kind makes no difference. -/
theorem before_erase_of_other (hk : p k = false) (hne : k ≠ c) :
    before p (queue.erase k) c = before p queue c := by
  induction queue with
  | nil => rfl
  | cons a queue ih =>
    by_cases ha : a = k
    · subst ha
      rw [List.erase_cons_head, before_cons_of_ne hne, if_neg (by simp [hk])]
    · rw [List.erase_cons_tail (by simpa using ha)]
      by_cases hac : a = c
      · subst hac
        rw [before_cons_self, before_cons_self]
      · rw [before_cons_of_ne hac, before_cons_of_ne hac, ih]

/-- Taking out the first key of the kind brings every later one a place forward. -/
theorem before_erase_first (hf : queue.find? p = some f) (hne : f ≠ c) (hp : p c = true) :
    before p queue c = f :: before p (queue.erase f) c := by
  induction queue with
  | nil => simp at hf
  | cons a queue ih =>
    rw [List.find?_cons] at hf
    split at hf
    next ha =>
      obtain rfl := Option.some.inj hf
      rw [List.erase_cons_head, before_cons_of_ne hne, if_pos ha]
    next ha =>
      have hac : a ≠ c := by
        rintro rfl
        exact absurd (hp.symm.trans ha) (by simp)
      have haf : a ≠ f := by
        rintro rfl
        exact absurd ((List.find?_some hf).symm.trans ha) (by simp)
      have hna : ¬p a = true := by simp [ha]
      rw [List.erase_cons_tail (by simpa using haf), before_cons_of_ne hac, before_cons_of_ne hac,
        if_neg hna, if_neg hna, ih hf]

theorem before_eq_nil_iff (hc : c ∈ queue) (hp : p c = true) :
    before p queue c = [] ↔ queue.find? p = some c := by
  induction queue with
  | nil => simp at hc
  | cons a queue ih =>
    rw [List.find?_cons]
    by_cases hac : a = c
    · subst hac
      rw [before_cons_self, hp]
      simp
    · have hm : c ∈ queue := (List.mem_cons.mp hc).resolve_left (Ne.symm hac)
      rw [before_cons_of_ne hac]
      cases ha : p a with
      | true => simpa using hac
      | false => simpa using ih hm

theorem erase_isPrefix_erase (h : queue <+: queue') (hf : f ∈ queue) :
    queue.erase f <+: queue'.erase f := by
  obtain ⟨more, rfl⟩ := h
  rw [List.erase_append_left more hf]
  exact List.prefix_append _ _

end WaitingLine
