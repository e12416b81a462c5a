import Mathlib.Data.List.Nodup

namespace WorkQueue

variable {κ : Type*} [DecidableEq κ] {ready ready' : κ → Bool} {queue : List κ} {count : Nat} {k : κ}

/-- A counted queue that lists the ready keys, each once. -/
structure Exact (ready : κ → Bool) (queue : List κ) (count : Nat) : Prop where
  nodup : queue.Nodup
  mem_iff : ∀ k, k ∈ queue ↔ ready k = true
  count_eq : count = queue.length

omit [DecidableEq κ] in
theorem Exact.congr (h : Exact ready queue count) (hr : ∀ k, ready' k = ready k) :
    Exact ready' queue count :=
  ⟨h.nodup, fun k => by rw [h.mem_iff, hr], h.count_eq⟩

omit [DecidableEq κ] in
theorem Exact.append (h : Exact ready queue count) {keys : List κ} (hn : keys.Nodup)
    (hk : ∀ k ∈ keys, ready k = false)
    (hr : ∀ k, ready' k = true ↔ ready k = true ∨ k ∈ keys) :
    Exact ready' (queue ++ keys) (count + keys.length) := by
  refine ⟨List.nodup_append.mpr ⟨h.nodup, hn, ?_⟩, ?_, by simp [h.count_eq]⟩
  · rintro a ha b hb rfl
    have := (h.mem_iff a).mp ha
    simp [hk a hb] at this
  · intro k
    rw [List.mem_append, h.mem_iff, hr]

theorem Exact.push (h : Exact ready queue count) (hk : ready k = false)
    (hr : ∀ k', ready' k' = if k' = k then true else ready k') :
    Exact ready' (queue ++ [k]) (count + 1) := by
  refine h.append (List.nodup_singleton k) (by simpa using hk) ?_
  intro k'
  rw [hr]
  split
  next he => simp [he]
  next he => simp [he]

theorem Exact.erase (h : Exact ready queue count) (hk : ready k = true)
    (hr : ∀ k', ready' k' = if k' = k then false else ready k') :
    Exact ready' (queue.erase k) (count - 1) := by
  have hmem := (h.mem_iff k).mpr hk
  refine ⟨h.nodup.erase k, ?_, by rw [List.length_erase_of_mem hmem, h.count_eq]⟩
  intro k'
  rw [h.nodup.mem_erase_iff, h.mem_iff, hr]
  split
  next he => simp [he]
  next he => simp [he]

theorem Exact.rotate (h : Exact ready queue count) (hk : k ∈ queue) :
    Exact ready (queue.erase k ++ [k]) count := by
  have hperm : (queue.erase k ++ [k]).Perm queue :=
    (List.perm_append_singleton k _).trans (List.perm_cons_erase hk).symm
  exact ⟨hperm.nodup_iff.mpr h.nodup, fun k' => by rw [hperm.mem_iff, h.mem_iff],
    by rw [h.count_eq, hperm.length_eq]⟩

omit [DecidableEq κ] in
theorem Exact.count_pos (h : Exact ready queue count) (hk : ready k = true) : 0 < count := by
  rw [h.count_eq]
  exact List.length_pos_of_mem ((h.mem_iff k).mpr hk)

end WorkQueue
