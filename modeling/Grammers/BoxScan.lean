import Grammers.BoxPrimitives

namespace Grammers

open WorkQueue

/-- Whether the expiry scan makes the recovery of an entry ready. -/
def LiveEntry.isDue (e : LiveEntry) (now : Instant) : Bool :=
  (e.recoveryDeferred && decide (e.deadline ≤ now)) ||
    (!e.recoveryPending && decide (e.effectiveDeadline ≤ now))

/-- The entry after the expiry scan. -/
def LiveEntry.roused (e : LiveEntry) (now : Instant) : LiveEntry :=
  if e.isDue now then
    { e with
      recoveryDeferred := false
      recoveryPending := true
      recoveryDeferrals := if e.recoveryPending then e.recoveryDeferrals else 0
      possibleGap := if e.recoveryPending then e.possibleGap else none }
  else e

/-- The updates the scan moves from an expired gap to the held ones. -/
def LiveEntry.expired (e : LiveEntry) (now : Instant) : List (Int × Update) :=
  if e.isDue now ∧ ¬e.recoveryPending then gapHeld e.key e.possibleGap else []

theorem LiveEntry.roused_key (e : LiveEntry) (now : Instant) : (e.roused now).key = e.key := by
  unfold LiveEntry.roused
  split <;> rfl

theorem LiveEntry.Ok.roused {e : LiveEntry} (he : e.Ok) (now : Instant) : (e.roused now).Ok := by
  unfold LiveEntry.roused
  split
  next hdue =>
    by_cases hp : e.recoveryPending = true
    · refine ⟨by simp, ?_, ?_, ?_, ?_, fun hk => ⟨(he.account hk).1, rfl⟩, ?_⟩
      · simpa [LiveEntry.buffer, hp] using he.storable
      · simpa [LiveEntry.buffer, hp] using he.bound
      · simpa [hp] using he.nonempty
      · simpa [LiveEntry.buffer, hp] using he.ahead
      · exact fun hk _ => by simpa [hp] using he.accountGap hk hp
    · exact LiveEntry.Ok.of_no_gap (by simp [hp]) (by simp) fun hk => ⟨(he.account hk).1, rfl⟩
  next => exact he

theorem LiveEntry.isReady_roused {e : LiveEntry} (now : Instant) :
    (e.roused now).isReady = (e.isReady || e.isDue now) := by
  unfold LiveEntry.roused
  split
  next hdue => simp [LiveEntry.isReady, hdue]
  next hdue => simp [hdue]

theorem LiveEntry.isReady_of_isDue {e : LiveEntry} {now : Instant} (h : e.isDue now = true) :
    e.isReady = false := by
  simp only [LiveEntry.isDue, Bool.or_eq_true, Bool.and_eq_true, Bool.not_eq_true'] at h
  rcases h with ⟨hd, _⟩ | ⟨hp, _⟩
  · simp [LiveEntry.isReady, hd]
  · simp [LiveEntry.isReady, hp]

namespace MessageBoxes

variable {s s' : MessageBoxes} {e : LiveEntry} {es : List LiveEntry} {k : Key} {now : Instant}

theorem scanEntry_eq (he : e.Ok) (hb : s.heldUpdates.length ≤ maxHeldUpdates) (now : Instant) :
    ∃ overflowed, scanEntry now s e = ({ s with
        heldUpdates := latest maxHeldUpdates (s.heldUpdates ++ e.expired now)
        heldOverflowed := overflowed
        gettingDiffFor := s.gettingDiffFor ++ if e.isDue now then [e.key] else []
        readyDiffCount := s.readyDiffCount + if e.isDue now then 1 else 0 }, e.roused now) := by
  unfold scanEntry
  by_cases hd : e.recoveryDeferred = true ∧ e.deadline ≤ now
  · have hp := he.deferred hd.1
    have hdue : e.isDue now = true := by simp [LiveEntry.isDue, hd.1, hd.2]
    refine ⟨s.heldOverflowed, ?_⟩
    simp only [hd, hp, LiveEntry.expired, LiveEntry.roused, hdue, enqueue]
    simp [latest_of_short hb]
  · have hdeferred : (e.recoveryDeferred && decide (e.deadline ≤ now)) = false := by
      simpa using hd
    simp only [if_neg hd]
    by_cases hx : e.effectiveDeadline ≤ now ∧ ¬e.recoveryPending = true
    · have hp : e.recoveryPending = false := by simpa using hx.2
      have hdue : e.isDue now = true := by simp [LiveEntry.isDue, hp, hx.1]
      obtain ⟨o, ho⟩ := holdGap_eq hb e.key e.possibleGap
      refine ⟨o, ?_⟩
      rw [if_pos hx, ho]
      simp [LiveEntry.expired, LiveEntry.roused, hdue, hp, enqueue]
    · have hdue : e.isDue now = false := by
        rw [LiveEntry.isDue, hdeferred, Bool.false_or]
        simp only [Bool.and_eq_false_iff, Bool.not_eq_false', decide_eq_false_iff_not]
        by_cases hle : e.effectiveDeadline ≤ now
        · exact Or.inl (by simpa [hle] using hx)
        · exact Or.inr hle
      refine ⟨s.heldOverflowed, ?_⟩
      rw [if_neg hx]
      simp [LiveEntry.expired, LiveEntry.roused, hdue, latest_of_short hb]

/-- The scan wakes the due entries, queues their keys in order and keeps the latest of
what their gaps held. -/
theorem scanEntries_eq (hes : ∀ e ∈ es, e.Ok) (hb : s.heldUpdates.length ≤ maxHeldUpdates)
    (now : Instant) :
    ∃ overflowed, scanEntries now s es = ({ s with
        heldUpdates := latest maxHeldUpdates
          (s.heldUpdates ++ es.flatMap (LiveEntry.expired · now))
        heldOverflowed := overflowed
        gettingDiffFor := s.gettingDiffFor ++ (es.filter (LiveEntry.isDue · now)).map LiveEntry.key
        readyDiffCount := s.readyDiffCount +
          ((es.filter (LiveEntry.isDue · now)).map LiveEntry.key).length },
      es.map (LiveEntry.roused · now)) := by
  induction es generalizing s with
  | nil => exact ⟨s.heldOverflowed, by simp [scanEntries, latest_of_short hb]⟩
  | cons e es ih =>
    obtain ⟨o, ho⟩ := scanEntry_eq (hes e (by simp)) hb now
    have hlen : (latest maxHeldUpdates (s.heldUpdates ++ e.expired now)).length ≤ maxHeldUpdates :=
      latest_length _ _
    obtain ⟨o', ho'⟩ := ih (s := (scanEntry now s e).1) (fun e' h => hes e' (by simp [h]))
      (by rw [ho]; exact hlen)
    refine ⟨o', ?_⟩
    simp only [scanEntries]
    rw [ho', ho]
    simp only [latest_append, List.flatMap_cons, List.map_cons, List.append_assoc, List.filter_cons]
    cases e.isDue now with
    | true => simp [Nat.add_assoc, Nat.add_comm]
    | false => simp

/-- What the whole scan does to an invariant state. -/
theorem scanDeadlines_eq (h : s.Inv) (now : Instant) :
    ∃ overflowed, s.scanDeadlines now = { s with
      entries := s.entries.map (LiveEntry.roused · now)
      heldUpdates := latest maxHeldUpdates
        (s.heldUpdates ++ s.entries.flatMap (LiveEntry.expired · now))
      heldOverflowed := overflowed
      gettingDiffFor := s.gettingDiffFor ++
        (s.entries.filter (LiveEntry.isDue · now)).map LiveEntry.key
      readyDiffCount := s.readyDiffCount +
        ((s.entries.filter (LiveEntry.isDue · now)).map LiveEntry.key).length
      nextDeadline := (((s.entries.map (LiveEntry.roused · now)).filter LiveEntry.isWaiting).map
        LiveEntry.effectiveDeadline).min?.getD (nextUpdatesDeadline now) } := by
  have hok : ∀ e ∈ s.entries, e.Ok := fun e he => h.entryOk _ e (entry_of_mem h.sorted he)
  obtain ⟨o, ho⟩ := scanEntries_eq hok h.heldBound now
  refine ⟨o, ?_⟩
  unfold scanDeadlines
  rw [ho]

theorem entry_scanDeadlines (h : s.Inv) (now : Instant) (k : Key) :
    (s.scanDeadlines now).entry k = (s.entry k).map (LiveEntry.roused · now) := by
  obtain ⟨_, hs⟩ := scanDeadlines_eq h now
  rw [hs]
  exact SortedSearch.lookup_map h.sorted (fun e _ => e.roused_key now) k

theorem Inv.scanDeadlines (h : s.Inv) (now : Instant) : (s.scanDeadlines now).Inv := by
  have hentry := entry_scanDeadlines h now
  obtain ⟨o, hs⟩ := scanDeadlines_eq h now
  have hready : ∀ k, (s.scanDeadlines now).ready k = true ↔ s.ready k = true ∨
      k ∈ (s.entries.filter (LiveEntry.isDue · now)).map LiveEntry.key := by
    intro k
    rw [ready, hentry, ready]
    simp only [List.mem_map, List.mem_filter]
    cases he : s.entry k with
    | none =>
      simp only [Option.map_none, Option.any_none, Bool.false_eq_true, false_or, false_iff]
      rintro ⟨e, ⟨hm, _⟩, rfl⟩
      rw [entry_of_mem h.sorted hm] at he
      simp at he
    | some e =>
      obtain ⟨hm, hk⟩ := (entry_eq_some_iff h.sorted).mp he
      simp only [Option.map_some, Option.any_some, LiveEntry.isReady_roused, Bool.or_eq_true]
      apply or_congr_right
      constructor
      · exact fun hdue => ⟨e, ⟨hm, hdue⟩, hk⟩
      · rintro ⟨e', ⟨hm', hdue⟩, hk'⟩
        rwa [← SortedSearch.Sorted.eq_of_key h.sorted hm' hm (hk'.trans hk.symm)]
  refine ⟨?_, ?_, ?_, ?_, ?_⟩
  · rw [hs]
    exact SortedSearch.map_sorted h.sorted fun e _ => e.roused_key now
  · intro k e he
    rw [hentry] at he
    obtain ⟨e0, he0, rfl⟩ := Option.map_eq_some_iff.mp he
    exact (h.entryOk k e0 he0).roused now
  · have hnodup : ((s.entries.filter (LiveEntry.isDue · now)).map LiveEntry.key).Nodup :=
      (SortedSearch.Sorted.nodup_keys h.sorted).sublist (List.filter_sublist.map _)
    have := h.queue.append hnodup ?_ hready
    · rw [hs] at this ⊢
      exact this
    · intro k hk
      obtain ⟨e, he, rfl⟩ := List.mem_map.mp hk
      obtain ⟨hm, hdue⟩ := List.mem_filter.mp he
      rw [ready_of_entry (entry_of_mem h.sorted hm)]
      exact LiveEntry.isReady_of_isDue hdue
  · rw [hs]
    exact latest_length maxHeldUpdates (s.heldUpdates ++ s.entries.flatMap (LiveEntry.expired · now))
  · rw [hs]
    intro held hh
    rcases List.mem_append.mp (mem_of_mem_latest hh) with hh | hh
    · exact h.heldOk held hh
    · obtain ⟨e, he, hx⟩ := List.mem_flatMap.mp hh
      unfold LiveEntry.expired at hx
      split at hx
      next => exact gapHeld_storable (h.entryOk _ e (entry_of_mem h.sorted he)) held hx
      next => simp at hx

theorem Inv.checkDeadlines (h : s.Inv) (now : Instant) : (s.checkDeadlines now).2.Inv := by
  unfold MessageBoxes.checkDeadlines
  simp only
  split
  next => exact h
  next => exact h.scanDeadlines now

end MessageBoxes

end Grammers
