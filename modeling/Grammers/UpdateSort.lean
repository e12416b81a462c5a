import Grammers.BoxAdaptor
import Grammers.InPlaceSort

namespace Grammers

open StableSort InPlaceSort

/-- The sort of a batch in its own slice, with the steps that it takes there. -/
def sortUpdatesInPlace {κ : Type} [LinearOrder κ] (key : Update → κ) (updates : List Update) :
    Option (List Update) :=
  if isSortedByKey key updates then some updates
  else if updates.length > maxInsertionSortUpdates then some (sortByKey key updates)
  else insertionLoop key updates

theorem sortUpdatesInPlace_eq {κ : Type} [LinearOrder κ] (key : Update → κ)
    (updates : List Update) :
    sortUpdatesInPlace key updates = some (sortUpdatesByKey key updates) := by
  rw [sortUpdatesByKey_eq]
  unfold sortUpdatesInPlace
  split
  next h => rw [(isSortedByKey_iff.mp h).sortByKey_eq]
  next =>
    split
    next => rfl
    next => exact insertionLoop_eq key updates

/-- Updates of one key keep their order, and only one ascending list has this order. -/
theorem sortUpdatesInPlace_stable {κ : Type} [LinearOrder κ] (key : Update → κ)
    (updates : List Update) :
    (∃ sorted, sortUpdatesInPlace key updates = some sorted ∧ sorted.Perm updates ∧
      Ascending key sorted ∧
      (∀ k, (sorted.filter fun u => key u = k) = updates.filter fun u => key u = k) ∧
      ∀ other, Ascending key other →
        (∀ k, (other.filter fun u => key u = k) = updates.filter fun u => key u = k) →
        other = sorted) ∧
    ∃ sorted, sortUpdatesInPlace (fun u => OrderDual.toDual (key u)) updates = some sorted ∧
      sorted.Pairwise (fun a b => key b ≤ key a) ∧
      ∀ k, (sorted.filter fun u => key u = k) = updates.filter fun u => key u = k := by
  refine ⟨⟨sortByKey key updates, ?_, sortByKey_perm key updates, sortByKey_ascending key updates,
    fun k => filter_sortByKey (ascending_filter_key updates k),
    fun other hasc hsame => sortByKey_eq_of_filter_key hasc hsame⟩,
    sortByKey (fun u => OrderDual.toDual (key u)) updates, ?_, ?_, ?_⟩
  · rw [sortUpdatesInPlace_eq, sortUpdatesByKey_eq]
  · rw [sortUpdatesInPlace_eq, sortUpdatesByKey_eq]
  · exact sortByKey_ascending (fun u => OrderDual.toDual (key u)) updates
  · intro k
    have hk : Ascending (fun u => OrderDual.toDual (key u)) (updates.filter fun u => key u = k) :=
      ascending_filter_key updates (OrderDual.toDual k)
    exact filter_sortByKey hk

end Grammers
