import Mathlib.Data.List.Basic
import Mathlib.Data.List.Infix

namespace TextSearch

variable {α : Type}

/-- What is before and after the first separator. -/
def splitOnce (p : α → Bool) : List α → Option (List α × List α)
  | [] => none
  | c :: cs => if p c then some ([], cs) else (splitOnce p cs).map fun (a, b) => (c :: a, b)

/-- What is before and after the last separator. -/
def rsplitOnce (p : α → Bool) (text : List α) : Option (List α × List α) :=
  (splitOnce p text.reverse).map fun (a, b) => (b.reverse, a.reverse)

section Separators

variable {p : α → Bool} {text a b : List α} {s : α}

theorem splitOnce_append (ha : ∀ c ∈ a, p c = false) (hs : p s = true) :
    splitOnce p (a ++ s :: b) = some (a, b) := by
  induction a with
  | nil => simp [splitOnce, hs]
  | cons c a ih =>
    rw [List.forall_mem_cons] at ha
    simp [splitOnce, ha.1, ih ha.2]

theorem splitOnce_none (ha : ∀ c ∈ a, p c = false) : splitOnce p a = none := by
  induction a with
  | nil => rfl
  | cons c a ih =>
    rw [List.forall_mem_cons] at ha
    simp [splitOnce, ha.1, ih ha.2]

theorem splitOnce_eq_some (h : splitOnce p text = some (a, b)) :
    ∃ s, p s = true ∧ text = a ++ s :: b ∧ ∀ c ∈ a, p c = false := by
  induction text generalizing a with
  | nil => cases h
  | cons c text ih =>
    rw [splitOnce] at h
    split at h
    next hc =>
      cases h
      exact ⟨c, hc, rfl, by simp⟩
    next hc =>
      obtain ⟨⟨a', b'⟩, hrest, heq⟩ := Option.map_eq_some_iff.mp h
      cases heq
      obtain ⟨s, hs, rfl, hall⟩ := ih hrest
      exact ⟨s, hs, rfl, List.forall_mem_cons.mpr ⟨by simpa using hc, hall⟩⟩

theorem splitOnce_eq_none (h : splitOnce p text = none) : ∀ c ∈ text, p c = false := by
  induction text with
  | nil => simp
  | cons c text ih =>
    rw [splitOnce] at h
    split at h
    next => cases h
    next hc =>
      exact List.forall_mem_cons.mpr ⟨by simpa using hc, ih (Option.map_eq_none_iff.mp h)⟩

theorem rsplitOnce_append (hb : ∀ c ∈ b, p c = false) (hs : p s = true) :
    rsplitOnce p (a ++ s :: b) = some (a, b) := by
  have hreverse : (a ++ s :: b).reverse = b.reverse ++ s :: a.reverse := by simp
  rw [rsplitOnce, hreverse,
    splitOnce_append (fun c hc => hb c (List.mem_reverse.mp hc)) hs]
  simp

theorem rsplitOnce_none (ha : ∀ c ∈ a, p c = false) : rsplitOnce p a = none := by
  rw [rsplitOnce, splitOnce_none fun c hc => ha c (List.mem_reverse.mp hc)]
  rfl

theorem rsplitOnce_eq_none (h : rsplitOnce p text = none) : ∀ c ∈ text, p c = false :=
  fun c hc => splitOnce_eq_none (Option.map_eq_none_iff.mp h) c (List.mem_reverse.mpr hc)

theorem rsplitOnce_eq_some (h : rsplitOnce p text = some (a, b)) :
    ∃ s, p s = true ∧ text = a ++ s :: b ∧ ∀ c ∈ b, p c = false := by
  obtain ⟨⟨b', a'⟩, hsplit, heq⟩ := Option.map_eq_some_iff.mp h
  cases heq
  obtain ⟨s, hs, htext, hall⟩ := splitOnce_eq_some hsplit
  refine ⟨s, hs, ?_, fun c hc => hall c (List.mem_reverse.mp hc)⟩
  rw [← List.reverse_reverse text, htext]
  simp

end Separators

/-! Where a pattern can be in a text that is put together. -/

/-- An occurrence is before or after where a text is cut, if what follows the cut is not in the
middle of the pattern. -/
theorem infix_split {c : α} {cs x y a b : List α} (h : x ++ c :: cs ++ y = a ++ b)
    (hb : ∀ d ∈ b.head?, d ∉ cs) :
    (∃ y', a = x ++ c :: cs ++ y' ∧ y = y' ++ b) ∨
      ∃ x', x = a ++ x' ∧ b = x' ++ c :: cs ++ y := by
  obtain ⟨y', ha, hy⟩ | ⟨b', hx, hbeq⟩ := List.append_eq_append_iff.mp h
  · exact .inl ⟨y', ha, hy⟩
  · obtain ⟨l, ha, hpattern⟩ | ⟨x', hx', hb'⟩ := List.append_eq_append_iff.mp hx
    · cases l with
      | nil => exact .inr ⟨[], by simpa using ha.symm, by rw [hbeq, hpattern]; rfl⟩
      | cons c' l =>
        cases b' with
        | nil =>
          rw [List.append_nil] at hpattern
          exact .inl ⟨[], by rw [ha, ← hpattern, List.append_nil], hbeq.symm⟩
        | cons d b' =>
          have hcs : cs = l ++ d :: b' := (List.cons.inj hpattern).2
          exact absurd (by simp [hcs]) (hb d (by simp [hbeq]))
    · exact .inr ⟨x', hx', by rw [hbeq, hb']⟩

/-- An occurrence is behind a text without the first sign of the pattern. -/
theorem infix_skip {c : α} {cs x y a b : List α} (h : x ++ c :: cs ++ y = a ++ b) (ha : c ∉ a) :
    ∃ x', x = a ++ x' ∧ b = x' ++ c :: cs ++ y := by
  rw [List.append_assoc] at h
  obtain ⟨l, hl, hrest⟩ | ⟨x', hx, hb⟩ := List.append_eq_append_iff.mp h
  · cases l with
    | nil => exact ⟨[], by simpa using hl.symm, by simpa using hrest.symm⟩
    | cons d l =>
      obtain ⟨rfl, -⟩ := List.cons.inj hrest
      exact absurd (by simp [hl]) ha
  · exact ⟨x', hx, by rw [hb, List.append_assoc]⟩

variable [DecidableEq α]

/-- One pattern, which starts with `c`, for another. -/
def replaceAll (c : α) (cs new text : List α) : List α :=
  match _h : text.dropInfix? (c :: cs) with
  | none => text
  | some (before, after) => before ++ new ++ replaceAll c cs new after
termination_by text.length
decreasing_by
  obtain ⟨⟨i, rfl, hi⟩, -⟩ := List.dropInfix?_eq_some_iff.mp _h
  have hlength := congrArg List.length (eq_of_beq hi)
  simp only [List.length_append, List.length_cons] at hlength ⊢
  omega

theorem dropInfix?_go_eq_none_iff {l i acc : List α} :
    List.dropInfix?.go i l acc = none ↔ ¬i <:+: l := by
  induction l generalizing acc with
  | nil =>
    rw [List.dropInfix?.go, List.infix_nil]
    cases i <;> simp
  | cons a l ih =>
    rw [List.dropInfix?.go, List.infix_cons_iff]
    cases hfront : (a :: l).dropPrefix? i with
    | none =>
      have hnot : ¬i <+: a :: l := by
        rintro ⟨rest, hrest⟩
        have hsome := List.dropPrefix?_append_of_beq rest (beq_self_eq_true i)
        rw [hrest, hfront] at hsome
        cases hsome
      simp only [ih, hnot, false_or]
    | some rest =>
      obtain ⟨i', heq, hi⟩ := List.dropPrefix?_eq_some_iff.mp hfront
      rw [eq_of_beq hi] at heq
      have hyes : i <+: a :: l := ⟨rest, heq.symm⟩
      simp [hyes]

theorem dropInfix?_eq_none_iff {l i : List α} : l.dropInfix? i = none ↔ ¬i <:+: l :=
  dropInfix?_go_eq_none_iff

/-- The first occurrence of a pattern whose first sign does not come again in it. -/
theorem dropInfix?_append {c : α} {cs q rest : List α} (hc : c ∉ cs) (hq : ¬c :: cs <:+: q) :
    (q ++ c :: cs ++ rest).dropInfix? (c :: cs) = some (q, rest) := by
  refine List.dropInfix?_eq_some_iff.mpr ⟨⟨_, rfl, beq_self_eq_true _⟩, ?_⟩
  intro x i y h hi
  rw [eq_of_beq hi, List.append_assoc q] at h
  obtain ⟨y', hq', -⟩ | ⟨x', hx, -⟩ := infix_split h.symm (by simpa using hc)
  · exact absurd ⟨x, y', hq'.symm⟩ hq
  · rw [hx, List.length_append]
    exact Nat.le_add_right _ _

theorem dropInfix?_eq {c : α} {cs text before after : List α}
    (h : text.dropInfix? (c :: cs) = some (before, after)) : text = before ++ c :: cs ++ after := by
  obtain ⟨⟨i, htext, hi⟩, -⟩ := List.dropInfix?_eq_some_iff.mp h
  rw [htext, eq_of_beq hi]

/-- Before the first occurrence there is none. -/
theorem not_infix_before {c : α} {cs text before after : List α}
    (h : text.dropInfix? (c :: cs) = some (before, after)) : ¬c :: cs <:+: before := by
  rintro ⟨x, y, hxy⟩
  obtain ⟨⟨i, htext, hi⟩, hfirst⟩ := List.dropInfix?_eq_some_iff.mp h
  have hle := hfirst x (c :: cs) (y ++ c :: cs ++ after)
    (by rw [htext, eq_of_beq hi, ← hxy]; simp) (beq_self_eq_true _)
  have hlength := congrArg List.length hxy
  simp only [List.length_append, List.length_cons] at hlength
  omega

theorem replaceAll_of_absent {c : α} {cs new text : List α} (h : ¬c :: cs <:+: text) :
    replaceAll c cs new text = text := by
  rw [replaceAll]
  split
  next => rfl
  next before after hsome => exact absurd ⟨before, after, (dropInfix?_eq hsome).symm⟩ h

theorem replaceAll_append {c : α} {cs new q rest : List α} (hc : c ∉ cs) (hq : ¬c :: cs <:+: q) :
    replaceAll c cs new (q ++ c :: cs ++ rest) = q ++ new ++ replaceAll c cs new rest := by
  rw [replaceAll]
  split
  next hnone => rw [dropInfix?_append hc hq] at hnone; cases hnone
  next before after hsome =>
    rw [dropInfix?_append hc hq] at hsome
    cases hsome
    rfl

/-- What is before every occurrence is left alone. -/
theorem replaceAll_skip {c : α} {cs new a b : List α} (hc : c ∉ cs)
    (h : ∀ {x y}, x ++ c :: cs ++ y = a ++ b → ∃ x', x = a ++ x' ∧ b = x' ++ c :: cs ++ y) :
    replaceAll c cs new (a ++ b) = a ++ replaceAll c cs new b := by
  by_cases hoccurs : c :: cs <:+: a ++ b
  · cases hdrop : (a ++ b).dropInfix? (c :: cs) with
    | none => exact absurd hoccurs (dropInfix?_eq_none_iff.mp hdrop)
    | some parts =>
      obtain ⟨before, after⟩ := parts
      have hfirst := not_infix_before hdrop
      have htext := dropInfix?_eq hdrop
      obtain ⟨x', rfl, hb⟩ := h htext.symm
      have hx' : ¬c :: cs <:+: x' := fun hx =>
        hfirst (hx.trans (List.suffix_append a x').isInfix)
      rw [htext, hb, replaceAll_append hc hfirst, replaceAll_append hc hx']
      simp only [List.append_assoc]
  · have hb : ¬c :: cs <:+: b := fun hb => hoccurs (hb.trans (List.suffix_append a b).isInfix)
    rw [replaceAll_of_absent hoccurs, replaceAll_of_absent hb]

end TextSearch
