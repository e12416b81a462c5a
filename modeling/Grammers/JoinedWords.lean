import Grammers.TextSearch

namespace JoinedWords

open TextSearch

variable {α : Type} (c : α)

/-- The words with one separator between each two. -/
def join : List (List α) → List α
  | [] => []
  | word :: words => word ++ words.flatMap (c :: ·)

variable {c} {p : α → Bool} {word d : List α} {words : List (List α)}

/-- Splitting at the separators and at more splits each word by itself. -/
theorem splitOnP_join (hc : p c = true) (word : List α) (words : List (List α)) :
    (join c (word :: words)).splitOnP p = (word :: words).flatMap (List.splitOnP p) := by
  rw [join]
  induction words generalizing word with
  | nil => simp
  | cons next words ih =>
    rw [List.flatMap_cons, List.cons_append, List.splitOnP_append_cons _ _ hc, ih next,
      ← List.flatMap_cons]

variable [DecidableEq α]

variable (c d) in
/-- What becomes of a separator and a word when the separator and `d` are removed together. -/
def strip (word : List α) : List α := if d <+: word then word.drop d.length else c :: word

/-- Removing the separator and `d` takes `d` away from the front of every word but the first. -/
theorem replaceAll_join (hd : c ∉ d) (hword : c ∉ word) (hwords : ∀ w ∈ words, c ∉ w) :
    replaceAll c d [] (join c (word :: words)) = word ++ words.flatMap (strip c d) := by
  rw [join]
  induction words generalizing word with
  | nil =>
    have habsent : ¬c :: d <:+: word := fun h => hword (h.subset List.mem_cons_self)
    simp [replaceAll_of_absent habsent]
  | cons next words ih =>
    obtain ⟨hnext, hrestwords⟩ := List.forall_mem_cons.mp hwords
    have hhead : ∀ x ∈ (words.flatMap (c :: ·)).head?, x ∉ d := by
      intro x hx
      cases words with
      | nil => simp at hx
      | cons w words =>
        obtain rfl : c = x := by simpa using hx
        exact hd
    rw [replaceAll_skip hd fun h => infix_skip h hword, List.flatMap_cons, List.flatMap_cons, strip]
    split
    next hprefix =>
      obtain ⟨rest, rfl⟩ := hprefix
      have hskip := @replaceAll_append _ _ c d [] [] (rest ++ words.flatMap (c :: ·)) hd (by simp)
      have hrest : c ∉ rest := fun h => hnext (List.mem_append_right _ h)
      rw [List.nil_append, List.nil_append, ih hrest hrestwords] at hskip
      rw [List.drop_left, ← List.cons_append, List.append_assoc, hskip, List.nil_append]
    next hprefix =>
      have hskip : replaceAll c d [] ((c :: next) ++ words.flatMap (c :: ·)) =
          (c :: next) ++ replaceAll c d [] (words.flatMap (c :: ·)) := by
        refine replaceAll_skip hd fun {x y} h => ?_
        obtain ⟨y', ha, -⟩ | hbehind := infix_split h hhead
        · cases x with
          | nil => exact absurd ⟨y', by simpa using (List.cons.inj ha).2.symm⟩ hprefix
          | cons e x =>
            obtain ⟨-, htail⟩ := List.cons.inj ha
            exact absurd (by simp [htail]) hnext
        · exact hbehind
      have hempty := @ih [] (by simp) hrestwords
      rw [List.nil_append, List.nil_append] at hempty
      rw [hskip, hempty]

theorem count_strip (hwords : ∀ w ∈ words, c ∉ w) :
    (words.flatMap (strip c d)).count c + words.countP (d <+: ·) = words.length := by
  induction words with
  | nil => rfl
  | cons word words ih =>
    obtain ⟨hword, hwords⟩ := List.forall_mem_cons.mp hwords
    have ih := ih hwords
    have hnone := List.count_eq_zero.mpr hword
    rw [List.flatMap_cons, List.count_append, List.length_cons, List.countP_cons, strip]
    split
    next h =>
      have hdrop := List.count_eq_zero.mpr fun hmem => hword (List.mem_of_mem_drop (i := d.length) hmem)
      simp only [hdrop, h, decide_true, if_true]
      omega
    next h =>
      simp only [List.count_cons_self, hnone, h, decide_false, Bool.false_eq_true, if_false]
      omega

theorem length_strip :
    (words.flatMap (strip c d)).length + (d.length + 1) * words.countP (d <+: ·) =
      (words.flatMap (c :: ·)).length := by
  induction words with
  | nil => rfl
  | cons word words ih =>
    rw [List.flatMap_cons, List.flatMap_cons, List.length_append, List.length_append, List.countP_cons,
      strip, List.length_cons]
    split
    next h =>
      have hle := h.length_le
      simp only [h, decide_true, if_true, List.length_drop, Nat.mul_add]
      omega
    next h =>
      simp only [h, decide_false, Bool.false_eq_true, if_false, List.length_cons, Nat.add_zero]
      omega

theorem count_filter_ne (hwords : ∀ w ∈ words, c ∉ w) :
    ((words.filter (· ≠ d)).flatMap (c :: ·)).count c + words.count d = words.length := by
  induction words with
  | nil => rfl
  | cons word words ih =>
    obtain ⟨hword, hwords⟩ := List.forall_mem_cons.mp hwords
    have ih := ih hwords
    have hnone := List.count_eq_zero.mpr hword
    by_cases h : word = d
    · subst h
      simp only [ne_eq, not_true_eq_false, decide_false, Bool.false_eq_true, not_false_eq_true,
        List.filter_cons_of_neg, List.count_cons_self, List.length_cons]
      simp only [ne_eq] at ih
      omega
    · simp only [ne_eq, h, not_false_eq_true, decide_true, List.filter_cons_of_pos, List.flatMap_cons,
        List.count_append, List.count_cons_self, hnone, List.length_cons, List.count_cons_of_ne h]
      simp only [ne_eq] at ih
      omega

theorem length_filter_ne :
    ((words.filter (· ≠ d)).flatMap (c :: ·)).length + (d.length + 1) * words.count d =
      (words.flatMap (c :: ·)).length := by
  induction words with
  | nil => rfl
  | cons word words ih =>
    by_cases h : word = d
    · subst h
      simp only [ne_eq, not_true_eq_false, decide_false, Bool.false_eq_true, not_false_eq_true,
        List.filter_cons_of_neg, List.count_cons_self, List.flatMap_cons, List.length_append,
        List.length_cons, Nat.mul_add]
      simp only [ne_eq] at ih
      omega
    · simp only [ne_eq, h, not_false_eq_true, decide_true, List.filter_cons_of_pos, List.flatMap_cons,
        List.length_append, List.length_cons, List.count_cons_of_ne h]
      simp only [ne_eq] at ih
      omega

end JoinedWords
