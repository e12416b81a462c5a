import Grammers.DequeBuffer
import Grammers.StableSort

namespace InPlaceSort

/-! Insertion sort by a key inside one slice; an index or a range outside of it is refused. -/

open SortedSearch StableSort

variable {α : Type} {κ : Type*} [LinearOrder κ] {key : α → κ} {sorted : List α}

/-- Every two neighbours are in order. -/
def isSortedByKey (key : α → κ) : List α → Bool
  | a :: b :: rest => decide (key a ≤ key b) && isSortedByKey key (b :: rest)
  | _ => true

/-- The entries from `start` to `last`, rotated by one towards the end. -/
def rotateRightOne (xs : List α) (start last : Nat) : Option (List α) :=
  if start ≤ last ∧ last < xs.length then
    some (xs.take start ++ ((xs.take (last + 1)).drop start).rotateRight 1 ++ xs.drop (last + 1))
  else none

/-- The entry at `at'` is rotated into the entries before it. -/
def insertStep (key : α → κ) (xs : List α) (at' : Nat) : Option (List α) := do
  let current := key (← xs[at']?)
  let position := partitionPoint (xs.take at') (fun x => key x ≤ current)
  rotateRightOne xs position at'

def insertionLoop (key : α → κ) (xs : List α) : Option (List α) :=
  (List.range' 1 (xs.length - 1)).foldlM (insertStep key) xs

theorem isSortedByKey_iff {xs : List α} : isSortedByKey key xs = true ↔ Ascending key xs := by
  induction xs with
  | nil => simp [isSortedByKey, Ascending]
  | cons a xs ih =>
    cases xs with
    | nil => simp [isSortedByKey, Ascending]
    | cons b rest =>
      rw [isSortedByKey, Bool.and_eq_true, decide_eq_true_eq, ih]
      constructor
      · rintro ⟨hab, hrest⟩
        refine List.pairwise_cons.mpr ⟨fun c hc => ?_, hrest⟩
        rcases List.mem_cons.mp hc with rfl | hc
        · exact hab
        · exact hab.trans ((List.pairwise_cons.mp hrest).1 c hc)
      · intro h
        obtain ⟨ha, hrest⟩ := List.pairwise_cons.mp h
        exact ⟨ha b List.mem_cons_self, hrest⟩

theorem rotateRightOne_append (left right rest : List α) (x : α) :
    rotateRightOne (left ++ right ++ x :: rest) left.length (left ++ right).length =
      some (left ++ x :: right ++ rest) := by
  have htake : (left ++ right ++ x :: rest).take ((left ++ right).length + 1) =
      left ++ (right ++ [x]) := by
    rw [List.take_length_add_append, List.append_assoc]
    rfl
  have hdrop : (left ++ right ++ x :: rest).drop ((left ++ right).length + 1) = rest := by
    rw [List.drop_length_add_append]
    rfl
  have hrotate : (right ++ [x]).rotateRight 1 = [x] ++ right :=
    DequeBuffer.rotateRight_append right [x]
  rw [rotateRightOne, if_pos ⟨by simp, by simp⟩, htake, hdrop, List.drop_left, hrotate,
    List.append_assoc left, List.take_left]
  simp

/-- A round takes one entry into the sorted entries before it. -/
theorem insertStep_eq (h : Ascending key sorted) (x : α) (rest : List α) :
    insertStep key (sorted ++ x :: rest) sorted.length =
      some (insertAtPartition key sorted x ++ rest) := by
  have hget : (sorted ++ x :: rest)[sorted.length]? = some x := by simp
  obtain ⟨left, right, rfl, hl, hr⟩ := h.split_le (key x)
  have hpoint : partitionPoint (left ++ right) (fun a => key a ≤ key x) = left.length :=
    partitionPoint_eq (fun a ha => by simpa using hl a ha) (fun a ha => by simpa using hr a ha)
  have hinsert : insertAtPartition key (left ++ right) x = left ++ x :: right := by
    simp [insertAtPartition, hpoint]
  rw [insertStep, hget, Option.bind_eq_bind, Option.bind_some, List.take_left, hinsert]
  change rotateRightOne _ (partitionPoint (left ++ right) fun a => key a ≤ key x) _ = _
  rw [hpoint]
  exact rotateRightOne_append left right rest x

theorem foldlM_insertStep (h : Ascending key sorted) (rest : List α) :
    (List.range' sorted.length rest.length).foldlM (insertStep key) (sorted ++ rest) =
      some (rest.foldl (insertAtPartition key) sorted) := by
  induction rest generalizing sorted with
  | nil => simp
  | cons x rest ih =>
    have hlen : (insertAtPartition key sorted x).length = sorted.length + 1 := by
      simp only [insertAtPartition, List.length_append, List.length_take, List.length_cons,
        List.length_drop]
      omega
    have hasc : Ascending key (insertAtPartition key sorted x) := insertAtPartition_ascending h
    have htail := ih hasc
    rw [hlen] at htail
    rw [List.length_cons, List.range'_succ, List.foldlM_cons, insertStep_eq h, List.foldl_cons]
    exact htail

/-- The loop runs to its end, and leaves the stable sort. -/
theorem insertionLoop_eq (key : α → κ) (xs : List α) :
    insertionLoop key xs = some (sortByKey key xs) := by
  rw [← foldl_insertAtPartition]
  cases xs with
  | nil => rfl
  | cons x rest => exact foldlM_insertStep (List.pairwise_singleton _ x) rest

end InPlaceSort
