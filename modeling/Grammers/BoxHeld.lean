import Grammers.BoxPrimitives

namespace Grammers

open StableSort Reassembly WorkQueue

variable {us : List Update} {k : Key} {c : Int}

theorem retainLoop_beyond (hs : ∀ u ∈ us, Storable k u) (pts : Int32) {kept beyond : List Update}
    (hb : beyond ≠ []) : retainLoop pts kept beyond us = (kept, beyond ++ us) := by
  induction us generalizing beyond with
  | nil => simp [retainLoop]
  | cons u us ih =>
    obtain ⟨info, hf, _⟩ := (hs u (by simp)).known
    have hne : ¬beyond.isEmpty = true := by simpa using hb
    simp only [retainLoop, hf, if_pos hne]
    rw [ih (fun v hv => hs v (by simp [hv])) (by simp)]
    simp

/-- The loop over held updates is the abstract drain. -/
theorem retainLoop_eq (hs : ∀ u ∈ us, Storable k u) (pts : Int32) (kept : List Update) :
    retainLoop pts kept [] us =
      (kept ++ (drain updateSortKey updateEnd pts.toInt us).delivered,
        (drain updateSortKey updateEnd pts.toInt us).rest) := by
  induction us generalizing pts kept with
  | nil => simp [retainLoop, drain]
  | cons u us ih =>
    obtain ⟨info, hf, _, hstart, hend⟩ := (hs u (by simp)).ptsInfo
    have htail : ∀ v ∈ us, Storable k v := fun v hv => hs v (by simp [hv])
    rw [PtsInfo.start] at hstart
    simp only [retainLoop, hf, List.isEmpty_nil, not_true_eq_false, ↓reduceIte, drain]
    rcases lt_trichotomy (pts.toInt + info.count.toInt) info.pts.toInt with hlt | heq | hgt
    · rw [compare_lt_iff_lt.mpr hlt, if_neg (by omega), if_neg (by omega)]
      simp only [List.nil_append, List.append_nil]
      exact retainLoop_beyond htail pts (by simp)
    · rw [compare_eq_iff_eq.mpr heq, if_pos (by omega), hend]
      simp only
      rw [ih htail]
      simp
    · rw [compare_gt_iff_gt.mpr hgt, if_neg (by omega), if_pos (by omega)]
      exact ih htail pts kept

/-- The entry once its next difference is spaced out. -/
def LiveEntry.backedOff (e : LiveEntry) (failures : Nat) (beyond : List Update)
    (retryAt : Instant) : LiveEntry :=
  { e with
    recoveryFailures := failures
    retryNotBefore := some retryAt
    possibleGap := if beyond.isEmpty then e.possibleGap else some ⟨retryAt, beyond⟩ }

namespace MessageBoxes

variable {s : MessageBoxes} {e : LiveEntry} {now : Instant}

/-- The updates held for a channel, oldest first. -/
def heldOf (s : MessageBoxes) (c : Int) : List Update :=
  (s.heldUpdates.filter fun held => held.1 = c).map Prod.snd

/-- What a position reaches of a channel's held updates. -/
def heldDrain (s : MessageBoxes) (c : Int) (pts : Int32) : Drained Update :=
  drain updateSortKey updateEnd pts.toInt (sortByKey updateSortKey (s.heldOf c))

theorem heldOf_storable (h : s.Inv) : ∀ u ∈ s.heldOf c, Storable (.channel c) u := by
  intro u hu
  obtain ⟨held, hm, rfl⟩ := List.mem_map.mp hu
  obtain ⟨hm, hc⟩ := List.mem_filter.mp hm
  have := h.heldOk held hm
  rwa [of_decide_eq_true hc] at this

theorem sorted_heldOf_storable (h : s.Inv) :
    ∀ u ∈ sortByKey updateSortKey (s.heldOf c), Storable (.channel c) u :=
  fun u hu => heldOf_storable h u ((sortByKey_perm updateSortKey _).mem_iff.mp hu)

/-- A channel keeps what directly follows its position, and hands over what lies beyond. -/
theorem retainContiguousHeldUpdates_eq (h : s.Inv) (c : Int) (pts : Int32) :
    s.retainContiguousHeldUpdates c pts =
      ({ s with heldUpdates := (s.heldUpdates.filter fun held => held.1 ≠ c) ++
          (s.heldDrain c pts).delivered.map fun u => (c, u) }, (s.heldDrain c pts).rest) := by
  have hloop := retainLoop_eq (sorted_heldOf_storable (c := c) h) pts []
  rw [heldOf] at hloop
  simp only [retainContiguousHeldUpdates, hloop]
  rfl

theorem heldDrain_delivered_storable (h : s.Inv) (pts : Int32) :
    ∀ u ∈ (s.heldDrain c pts).delivered, Storable (.channel c) u :=
  fun u hu => sorted_heldOf_storable h u ((drain_delivered_sublist _ _ _ _).subset hu)

theorem heldDrain_rest_storable (h : s.Inv) (pts : Int32) :
    ∀ u ∈ (s.heldDrain c pts).rest, Storable (.channel c) u :=
  fun u hu => sorted_heldOf_storable h u ((drain_rest_sublist _ _ _ _).subset hu)

theorem heldDrain_position_le (h : s.Inv) (c : Int) (pts : Int32) :
    pts.toInt ≤ (s.heldDrain c pts).position :=
  drain_position_le fun u hu => (sorted_heldOf_storable h u hu).range.2

theorem heldDrain_rest_beyond (c : Int) (pts : Int32) :
    ∀ u ∈ (s.heldDrain c pts).rest, (s.heldDrain c pts).position < updateSortKey u :=
  drain_rest_beyond (sortByKey_ascending updateSortKey _)

theorem heldOf_length_le (s : MessageBoxes) (c : Int) :
    (s.heldUpdates.filter fun held => held.1 ≠ c).length + (s.heldOf c).length =
      s.heldUpdates.length := by
  have := List.length_eq_length_filter_add (l := s.heldUpdates) fun held => decide (held.1 = c)
  simp only [heldOf, List.length_map]
  simp only [decide_not]
  omega

theorem Inv.retainContiguousHeldUpdates (h : s.Inv) (c : Int) (pts : Int32) :
    (s.retainContiguousHeldUpdates c pts).1.Inv := by
  rw [retainContiguousHeldUpdates_eq h]
  refine ⟨h.sorted, h.entryOk, h.queue, ?_, ?_⟩
  · have h1 := heldOf_length_le s c
    have h2 : (s.heldDrain c pts).delivered.length ≤ (s.heldOf c).length :=
      (drain_delivered_sublist _ _ _ _).length_le.trans (sortByKey_perm updateSortKey _).length_eq.le
    have h3 := h.heldBound
    simp only [List.length_append, List.length_map]
    omega
  · intro held hh
    rcases List.mem_append.mp hh with hh | hh
    · exact h.heldOk held (List.mem_filter.mp hh).1
    · obtain ⟨u, hu, rfl⟩ := List.mem_map.mp hh
      exact heldDrain_delivered_storable h pts u hu

theorem retryChannelAt_eq (hs : s.Sorted) (he : s.entry k = some e) (failures : Nat)
    (beyond : List Update) (retryAt : Instant) :
    s.retryChannelAt k failures beyond retryAt =
      { s.setEntry (e.backedOff failures beyond retryAt) with
        nextDeadline := if beyond.isEmpty then s.nextDeadline else min s.nextDeadline retryAt } := by
  have hset : (s.updateEntry k fun entry => { entry with
      recoveryFailures := failures
      retryNotBefore := some retryAt
      possibleGap := if beyond.isEmpty then entry.possibleGap else some ⟨retryAt, beyond⟩ }) =
      s.setEntry (e.backedOff failures beyond retryAt) := updateEntry_of_entry hs he rfl
  unfold retryChannelAt
  by_cases hb : beyond.isEmpty = true
  · rw [if_pos hb, if_pos hb, hset]
    rfl
  · rw [if_neg hb, if_neg hb]
    exact congrArg (fun t : MessageBoxes => { t with
      nextDeadline := min s.nextDeadline retryAt }) hset

/-- Spacing out a difference keeps the invariant when the gap lies ahead of the position. -/
theorem Inv.retryChannelAt (h : s.Inv) (he : s.entry (.channel c) = some e)
    {beyond : List Update} (hb : ∀ u ∈ beyond, Storable (.channel c) u)
    (hlen : beyond.length ≤ maxHeldUpdates) (ha : ∀ u ∈ beyond, e.pts.toInt < updateSortKey u)
    (failures : Nat) (retryAt : Instant) :
    (s.retryChannelAt (.channel c) failures beyond retryAt).Inv := by
  have hk : e.key = .channel c := h.entry_key he
  have hok := h.entryOk _ e he
  have hchannel : ∀ {P : Prop}, e.key.isChannel = false → P := fun hf => by simp [hk, Key.isChannel] at hf
  have hbacked : (e.backedOff failures beyond retryAt).Ok := by
    by_cases hnil : beyond = []
    · subst hnil
      exact ⟨hok.deferred, hok.storable, hok.bound, hok.nonempty, hok.ahead,
        fun hf => hchannel hf, fun hf => hchannel hf⟩
    · have hgap : (e.backedOff failures beyond retryAt).possibleGap = some ⟨retryAt, beyond⟩ := by
        simp [LiveEntry.backedOff, hnil]
      have hkept : (e.backedOff failures beyond retryAt).buffer.kept = beyond := by
        simp [LiveEntry.buffer, hgap]
      refine ⟨hok.deferred, ?_, by rw [hkept]; exact hlen, ?_, ?_, fun hf => hchannel hf,
        fun hf => hchannel hf⟩
      · rw [hkept]
        exact fun u hu => hk ▸ hb u hu
      · intro gap hg
        rw [hgap] at hg
        obtain rfl := Option.some.inj hg
        exact hnil
      · rw [hkept]
        exact fun _ u hu => ha u hu
  have hready : (e.backedOff failures beyond retryAt).isReady =
      s.ready (e.backedOff failures beyond retryAt).key := by
    show e.isReady = s.ready e.key
    rw [hk, ready_of_entry he]
  rw [retryChannelAt_eq h.sorted he]
  exact (h.setEntry hbacked hready).congr rfl rfl rfl rfl

end MessageBoxes

end Grammers
