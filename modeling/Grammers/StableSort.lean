import Grammers.SortedSearch
import Mathlib.Data.List.Sort

namespace StableSort

open SortedSearch

variable {α κ : Type*} [LinearOrder κ] {key : α → κ} {xs ys : List α}

/-- The stable ascending sort by a key. -/
def sortByKey (key : α → κ) (xs : List α) : List α :=
  xs.insertionSort (fun a b => key a ≤ key b)

def Ascending (key : α → κ) (xs : List α) : Prop := xs.Pairwise (fun a b => key a ≤ key b)

instance (key : α → κ) (xs : List α) : Decidable (Ascending key xs) :=
  inferInstanceAs (Decidable (xs.Pairwise (fun a b => key a ≤ key b)))

instance keyTotal (key : α → κ) : Std.Total (fun a b : α => key a ≤ key b) :=
  ⟨fun a b => le_total (key a) (key b)⟩

instance keyTrans (key : α → κ) : IsTrans α (fun a b : α => key a ≤ key b) :=
  ⟨fun _ _ _ => le_trans⟩

theorem sortByKey_perm (key : α → κ) (xs : List α) : (sortByKey key xs).Perm xs :=
  List.perm_insertionSort _ xs

theorem sortByKey_ascending (key : α → κ) (xs : List α) : Ascending key (sortByKey key xs) :=
  List.pairwise_insertionSort _ xs

/-- Sorting keeps the order of any subsequence that is already in order. -/
theorem filter_sortByKey {p : α → Bool} (h : Ascending key (xs.filter p)) :
    (sortByKey key xs).filter p = xs.filter p := by
  have hsub : (xs.filter p).Sublist (sortByKey key xs) :=
    List.sublist_insertionSort (r := fun a b => key a ≤ key b) h List.filter_sublist
  have hfilter := hsub.filter p
  rw [List.filter_filter, show (fun a => p a && p a) = p by funext a; simp] at hfilter
  exact (hfilter.eq_of_length ((sortByKey_perm key xs).filter p).length_eq.symm).symm

theorem ascending_filter_key (xs : List α) (k : κ) :
    Ascending key (xs.filter (fun a => key a = k)) := by
  apply List.Pairwise.imp_of_mem (R := fun _ _ => True)
  · intro a b ha hb _
    have hka : key a = k := by simpa using (List.mem_filter.mp ha).2
    have hkb : key b = k := by simpa using (List.mem_filter.mp hb).2
    exact (hka.trans hkb.symm).le
  · exact List.pairwise_of_forall (fun _ _ => trivial)

/-- Two ascending lists with the same entries, in the same order, for every key are equal. -/
theorem Ascending.eq_of_filter_key (hx : Ascending key xs) (hy : Ascending key ys)
    (h : ∀ k, xs.filter (fun a => key a = k) = ys.filter (fun a => key a = k)) : xs = ys := by
  induction xs generalizing ys with
  | nil =>
    cases ys with
    | nil => rfl
    | cons y ys => simpa using h (key y)
  | cons x xs ih =>
    cases ys with
    | nil => simpa using h (key x)
    | cons y ys =>
      obtain ⟨hx1, hx2⟩ := List.pairwise_cons.mp hx
      obtain ⟨hy1, hy2⟩ := List.pairwise_cons.mp hy
      have hyx : key y ≤ key x := by
        have hm : x ∈ (y :: ys).filter (fun a => key a = key x) := by
          rw [← h (key x)]
          simp
        rcases List.mem_cons.mp (List.mem_filter.mp hm).1 with rfl | hm
        · exact le_rfl
        · exact hy1 x hm
      have hxy : key x ≤ key y := by
        have hm : y ∈ (x :: xs).filter (fun a => key a = key y) := by
          rw [h (key y)]
          simp
        rcases List.mem_cons.mp (List.mem_filter.mp hm).1 with rfl | hm
        · exact le_rfl
        · exact hx1 y hm
      have hkey : key x = key y := le_antisymm hxy hyx
      have hhead : x = y := by
        have hk := h (key x)
        simp only [List.filter_cons, decide_true, ↓reduceIte, hkey] at hk
        exact (List.cons.inj hk).1
      subst y
      congr 1
      apply ih hx2 hy2
      intro k
      have hk := h k
      by_cases hc : key x = k
      · simp only [List.filter_cons, hc, decide_true, ↓reduceIte] at hk
        exact (List.cons.inj hk).2
      · simpa [List.filter_cons, hc] using hk

theorem sortByKey_eq_of_filter_key (hy : Ascending key ys)
    (h : ∀ k, ys.filter (fun a => key a = k) = xs.filter (fun a => key a = k)) :
    ys = sortByKey key xs := by
  apply hy.eq_of_filter_key (sortByKey_ascending key xs)
  intro k
  rw [h k, filter_sortByKey (ascending_filter_key xs k)]

/-- Move one entry to the partition point of the sorted prefix before it. -/
def insertAtPartition (key : α → κ) (sorted : List α) (current : α) : List α :=
  let position := partitionPoint sorted (fun a => key a ≤ key current)
  sorted.take position ++ current :: sorted.drop position

theorem Ascending.split_le (hs : Ascending key xs) (k : κ) :
    ∃ left right, xs = left ++ right ∧ (∀ a ∈ left, key a ≤ k) ∧ (∀ a ∈ right, k < key a) := by
  induction xs with
  | nil => exact ⟨[], [], rfl, by simp, by simp⟩
  | cons x xs ih =>
    obtain ⟨hx, hxs⟩ := List.pairwise_cons.mp hs
    rcases le_or_gt (key x) k with hle | hgt
    · obtain ⟨left, right, he, hl, hr⟩ := ih hxs
      refine ⟨x :: left, right, by simp [he], ?_, hr⟩
      intro a ha
      rcases List.mem_cons.mp ha with rfl | ha
      · exact hle
      · exact hl a ha
    · refine ⟨[], x :: xs, rfl, by simp, ?_⟩
      intro a ha
      rcases List.mem_cons.mp ha with rfl | ha
      · exact hgt
      · exact hgt.trans_le (hx a ha)

theorem insertAtPartition_spec (hs : Ascending key xs) (current : α) :
    ∃ left right, xs = left ++ right ∧ insertAtPartition key xs current = left ++ current :: right ∧
      (∀ a ∈ left, key a ≤ key current) ∧ (∀ a ∈ right, key current < key a) := by
  obtain ⟨left, right, he, hl, hr⟩ := hs.split_le (key current)
  have hp : partitionPoint (left ++ right) (fun a => key a ≤ key current) = left.length :=
    partitionPoint_eq (fun a ha => by simpa using hl a ha) (fun a ha => by simpa using hr a ha)
  exact ⟨left, right, he, by simp [insertAtPartition, he, hp], hl, hr⟩

theorem insertAtPartition_ascending {current : α} (hs : Ascending key xs) :
    Ascending key (insertAtPartition key xs current) := by
  obtain ⟨left, right, he, hins, hl, hr⟩ := insertAtPartition_spec hs current
  rw [he] at hs
  obtain ⟨h1, h2, h3⟩ := List.pairwise_append.mp hs
  rw [hins]
  refine List.pairwise_append.mpr ⟨h1, List.pairwise_cons.mpr ⟨fun a ha => (hr a ha).le, h2⟩, ?_⟩
  intro a ha b hb
  rcases List.mem_cons.mp hb with rfl | hb
  · exact hl a ha
  · exact h3 a ha b hb

theorem insertAtPartition_filter {current : α} (hs : Ascending key xs) (k : κ) :
    (insertAtPartition key xs current).filter (fun a => key a = k) =
      (xs ++ [current]).filter (fun a => key a = k) := by
  obtain ⟨left, right, he, hins, hl, hr⟩ := insertAtPartition_spec hs current
  rw [hins, he]
  simp only [List.filter_append, List.filter_cons, List.filter_nil]
  split
  next hk =>
    have hkey : key current = k := by simpa using hk
    have hnone : right.filter (fun a => key a = k) = [] := by
      apply List.filter_eq_nil_iff.mpr
      intro a ha
      have := hr a ha
      simp only [decide_eq_true_eq]
      exact fun hka => absurd (hkey.trans hka.symm) this.ne
    simp [hnone]
  next => simp

/-- Inserting the entries one by one at their partition point is the stable sort. -/
theorem foldl_insertAtPartition (key : α → κ) (xs : List α) :
    xs.foldl (insertAtPartition key) [] = sortByKey key xs := by
  have hfold : ∀ acc, Ascending key acc →
      Ascending key (xs.foldl (insertAtPartition key) acc) ∧
      ∀ k, (xs.foldl (insertAtPartition key) acc).filter (fun a => key a = k) =
        (acc ++ xs).filter (fun a => key a = k) := by
    induction xs with
    | nil => exact fun acc hacc => ⟨hacc, by simp⟩
    | cons x xs ih =>
      intro acc hacc
      obtain ⟨h1, h2⟩ := ih (insertAtPartition key acc x) (insertAtPartition_ascending hacc)
      refine ⟨h1, fun k => ?_⟩
      rw [List.foldl_cons, h2 k, List.filter_append, insertAtPartition_filter hacc k,
        ← List.filter_append]
      simp
  obtain ⟨h1, h2⟩ := hfold [] List.Pairwise.nil
  exact sortByKey_eq_of_filter_key h1 (by simpa using h2)

theorem Ascending.sortByKey_eq (h : Ascending key xs) : sortByKey key xs = xs :=
  List.Pairwise.insertionSort_eq h

end StableSort
