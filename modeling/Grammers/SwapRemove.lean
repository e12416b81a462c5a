import Mathlib.Data.List.Basic
import Mathlib.Data.List.Induction
import Mathlib.Data.List.Perm.Basic

namespace SwapRemove

variable {α ω ε : Type*}

/-- Take out one element of a vector; the last one moves to its place. -/
def swapRemove (xs : List α) (i : Nat) : List α :=
  match xs.getLast? with
  | none => []
  | some last => (xs.set i last).dropLast

theorem swapRemove_append_cons (pre : List α) (x : α) (rest : List α) :
    ∃ rest', rest'.Perm rest ∧ swapRemove (pre ++ x :: rest) pre.length = pre ++ rest' := by
  rcases List.eq_nil_or_concat' rest with rfl | ⟨init, last, rfl⟩
  · exact ⟨[], .refl _, by simp [swapRemove]⟩
  · refine ⟨last :: init, (List.perm_append_singleton last init).symm, ?_⟩
    have hlast : (pre ++ x :: (init ++ [last])).getLast? = some last := by
      rw [← List.cons_append, ← List.append_assoc, List.getLast?_concat]
    rw [swapRemove, hlast]
    simp only [List.set_append_right _ _ (Nat.le_refl _), Nat.sub_self, List.set_cons_zero]
    rw [← List.cons_append, ← List.append_assoc, List.dropLast_concat]

theorem swapRemove_perm {xs : List α} {i : Nat} {x : α} (h : xs[i]? = some x) :
    (x :: swapRemove xs i).Perm xs := by
  obtain ⟨hi, hx⟩ := List.getElem?_eq_some_iff.mp h
  have hsplit : xs = xs.take i ++ x :: xs.drop (i + 1) := by
    rw [← hx, List.getElem_cons_drop, List.take_append_drop]
  have hlen : (xs.take i).length = i := List.length_take_of_le (Nat.le_of_lt hi)
  obtain ⟨rest, hrest, hremove⟩ := swapRemove_append_cons (xs.take i) x (xs.drop (i + 1))
  rw [← hsplit, hlen] at hremove
  rw [hremove]
  nth_rewrite 2 [hsplit]
  exact List.perm_middle.symm.trans (List.Perm.append_left _ (hrest.cons x))

/-- What becomes of one element when a vector is gone through from its end. -/
inductive Verdict (α ω ε : Type*) where
  | keep (x : α)
  | remove (out : ω)
  | fail (e : ε)

/-- Go through the first elements of a vector from their end. -/
def sweep (f : α → Verdict α ω ε) : Nat → List α → List α × List ω × Option ε
  | 0, xs => (xs, [], none)
  | i + 1, xs =>
    match xs[i]? with
    | none => sweep f i xs
    | some x =>
      match f x with
      | .keep y => sweep f i (xs.set i y)
      | .remove out =>
        let (xs, outs, e) := sweep f i (swapRemove xs i)
        (xs, out :: outs, e)
      | .fail e => (xs, [], some e)

def Verdict.kept : Verdict α ω ε → Option α
  | .keep x => some x
  | _ => none

def Verdict.removed : Verdict α ω ε → Option ω
  | .remove out => some out
  | _ => none

/-- Unless it fails, a sweep comes by each element once, the last one first: what moves to the place
of an element that is removed was visited before. -/
theorem sweep_append {f : α → Verdict α ω ε} (pre : List α) :
    ∀ visited : List α, (∀ x ∈ pre, ∀ e, f x ≠ .fail e) →
      ∃ ys, sweep f pre.length (pre ++ visited) =
          (ys, pre.reverse.filterMap fun x => (f x).removed, none) ∧
        ys.Perm ((pre.filterMap fun x => (f x).kept) ++ visited) := by
  induction pre using List.reverseRecOn with
  | nil => exact fun visited _ => ⟨visited, rfl, .refl _⟩
  | append_singleton init x ih =>
    intro visited hok
    have hinit : ∀ x ∈ init, ∀ e, f x ≠ .fail e := fun x hx => hok x (by simp [hx])
    have hget : (init ++ [x] ++ visited)[init.length]? = some x := by simp
    rw [List.length_append, List.length_singleton, sweep, hget]
    simp only
    rw [List.append_assoc, List.singleton_append, List.reverse_append, List.reverse_singleton,
      List.singleton_append, List.filterMap_cons, List.filterMap_append]
    cases hf : f x with
    | keep y =>
      obtain ⟨ys, hsweep, hperm⟩ := ih (y :: visited) hinit
      have hset : (init ++ x :: visited).set init.length y = init ++ y :: visited := by simp
      refine ⟨ys, ?_, ?_⟩
      · simp only [hset, hsweep, Verdict.removed]
      · simpa [hf, Verdict.kept] using hperm
    | remove out =>
      obtain ⟨visited', hvisited, hremove⟩ := swapRemove_append_cons init x visited
      obtain ⟨ys, hsweep, hperm⟩ := ih visited' hinit
      refine ⟨ys, ?_, ?_⟩
      · simp only [hremove, hsweep, Verdict.removed]
      · have hperm' := hperm.trans (hvisited.append_left _)
        simpa [hf, Verdict.kept] using hperm'
    | fail e => exact absurd hf (hok x (by simp) e)

theorem sweep_perm {f : α → Verdict α ω ε} {xs : List α} (h : ∀ x ∈ xs, ∀ e, f x ≠ .fail e) :
    ∃ ys, sweep f xs.length xs = (ys, xs.reverse.filterMap fun x => (f x).removed, none) ∧
      ys.Perm (xs.filterMap fun x => (f x).kept) := by
  have hall := sweep_append xs [] h
  rwa [List.append_nil, List.append_nil] at hall

/-- What each verdict keeps, the sweep keeps: the order of a vector does not matter to it. -/
theorem sweep_keeps {f : α → Verdict α ω ε} {P : List α → List ω → Prop}
    (hperm : ∀ xs ys outs, xs.Perm ys → P xs outs → P ys outs)
    (hkeep : ∀ x y rest outs, f x = .keep y → P (x :: rest) outs → P (y :: rest) outs)
    (hremove : ∀ x out rest outs, f x = .remove out → P (x :: rest) outs → P rest (outs ++ [out])) :
    ∀ (n : Nat) (xs : List α) (outs : List ω), P xs outs →
      P (sweep f n xs).1 (outs ++ (sweep f n xs).2.1) := by
  intro n
  induction n with
  | zero =>
    intro xs outs h
    simpa [sweep] using h
  | succ i ih =>
    intro xs outs h
    simp only [sweep]
    split
    next => exact ih xs outs h
    next x hx =>
      have hremoved := swapRemove_perm hx
      split
      next y hy =>
        obtain ⟨hi, hget⟩ := List.getElem?_eq_some_iff.mp hx
        apply ih
        have hset : (xs.set i y).Perm (y :: xs.eraseIdx i) := by
          rw [List.set_eq_take_append_cons_drop, if_pos hi, List.eraseIdx_eq_take_drop_succ]
          exact List.perm_middle
        have herase : xs.Perm (x :: xs.eraseIdx i) := by
          rw [List.eraseIdx_eq_take_drop_succ]
          refine List.Perm.trans (.of_eq ?_) List.perm_middle
          rw [← hget, List.getElem_cons_drop, List.take_append_drop]
        exact hperm _ _ _ hset.symm (hkeep x y _ outs hy (hperm _ _ _ herase h))
      next out hout =>
        have hnext := ih (swapRemove xs i) (outs ++ [out])
          (hremove x out _ outs hout (hperm _ _ _ hremoved.symm h))
        simpa [List.append_assoc] using hnext
      next => simpa using h

end SwapRemove
