import Grammers.BoxProcess
import Grammers.Reassembly

namespace Grammers

open StableSort Reassembly

/-- Updates that may wait for a key: ordered ones of that key, which passed the batch check. -/
structure Storable (key : Key) (update : Update) : Prop where
  ordinary : ∀ channelId pts, update ≠ .channelTooLong channelId pts
  valid : PtsInfo.validUpdate update = true
  known : ∃ info, PtsInfo.fromUpdate update = some info ∧ info.key = key

/-- The position an update ends at. -/
def updateEnd (update : Update) : Int :=
  ((PtsInfo.fromUpdate update).map fun info => info.pts.toInt).getD 0

def Batch.deliver (b : Batch) (update : Update) : Update × State :=
  (update, b.mkState ((PtsInfo.fromUpdate update).map PtsInfo.toMessageBox))

/-- The abstract view of an entry: a position and what waits for the gap before it. -/
def LiveEntry.buffer (entry : LiveEntry) : Buffer Update where
  position := entry.pts.toInt
  kept := (entry.possibleGap.map PossibleGap.updates).getD []

/-- One update arriving at the buffer of its entry. -/
def LiveEntry.accept (entry : LiveEntry) (update : Update) : Buffer Update × List Update :=
  arrive updateSortKey updateEnd maxHeldUpdates popOrder entry.buffer update

def LiveEntry.gapDeadline (entry : LiveEntry) (now : Instant) : Instant :=
  (entry.possibleGap.map PossibleGap.deadline).getD (now + possibleGapTimeout)

variable {k : Key} {u : Update} {us : List Update} {info : PtsInfo} {b : Batch} {e : LiveEntry}

theorem Storable.ptsInfo (h : Storable k u) : ∃ info, PtsInfo.fromUpdate u = some info ∧
    info.key = k ∧ updateSortKey u = info.start ∧ updateEnd u = info.pts.toInt := by
  obtain ⟨info, hf, hk⟩ := h.known
  have hv := h.valid
  exact ⟨info, hf, hk, updateSortKey_eq_start hv hf, by simp [updateEnd, hf]⟩

theorem Storable.range (h : Storable k u) : 0 ≤ updateSortKey u ∧ updateSortKey u ≤ updateEnd u := by
  obtain ⟨info, hf, _, h1, h2⟩ := h.ptsInfo
  have := PtsInfo.validUpdate_range h.valid hf
  rw [h1, h2, PtsInfo.start]
  omega

theorem popOrder_perm (us : List Update) : (popOrder us).Perm us := by
  rw [popOrder, sortUpdatesByKey_eq]
  exact (List.reverse_perm _).trans (sortByKey_perm _ us)

theorem popOrder_ascending (us : List Update) : Ascending updateSortKey (popOrder us) := by
  rw [popOrder, sortUpdatesByKey_eq]
  have h := sortByKey_ascending (fun u => OrderDual.toDual (updateSortKey u)) us
  exact List.pairwise_reverse.mpr h

theorem mem_popOrder : u ∈ popOrder us ↔ u ∈ us := (popOrder_perm us).mem_iff

/-- The loop over a gap is the abstract drain, and stored updates never fail it. -/
theorem drainGap_eq (hs : ∀ u ∈ us, Storable k u) (b : Batch) (pts : Int32) :
    ∃ pts', pts'.toInt = (drain updateSortKey updateEnd pts.toInt us).position ∧
      drainGap b pts us = .ok (pts',
        (drain updateSortKey updateEnd pts.toInt us).delivered.map b.deliver,
        (drain updateSortKey updateEnd pts.toInt us).rest) := by
  induction us generalizing pts with
  | nil => exact ⟨pts, rfl, rfl⟩
  | cons u us ih =>
    obtain ⟨info, hf, _, hstart, hend⟩ := (hs u (by simp)).ptsInfo
    have htail : ∀ v ∈ us, Storable k v := fun v hv => hs v (by simp [hv])
    simp only [drainGap, hf, drain]
    rcases lt_trichotomy (pts.toInt + info.count.toInt) info.pts.toInt with hlt | heq | hgt
    · have h1 : ¬updateSortKey u = pts.toInt := by rw [hstart, PtsInfo.start]; omega
      have h2 : ¬updateSortKey u < pts.toInt := by rw [hstart, PtsInfo.start]; omega
      simp [compare_lt_iff_lt.mpr hlt, h1, h2]
    · have h1 : updateSortKey u = pts.toInt := by rw [hstart, PtsInfo.start]; omega
      obtain ⟨pts', hp, hd⟩ := ih htail info.pts
      refine ⟨pts', ?_, ?_⟩
      · rw [if_pos h1, hend]
        exact hp
      · rw [compare_eq_iff_eq.mpr heq, if_pos h1, hend, hd]
        simp [bind, Except.bind, pure, Except.pure, Batch.deliver, hf]
    · have h1 : ¬updateSortKey u = pts.toInt := by rw [hstart, PtsInfo.start]; omega
      have h2 : updateSortKey u < pts.toInt := by rw [hstart, PtsInfo.start]; omega
      simp only [compare_gt_iff_gt.mpr hgt, h1, h2, ↓reduceIte]
      exact ih htail pts

/-- The drain of an entry's own gap. -/
def LiveEntry.drained (entry : LiveEntry) : Drained Update :=
  drain updateSortKey updateEnd entry.pts.toInt (popOrder entry.buffer.kept)

theorem popOrder_nil : popOrder [] = [] := (popOrder_perm []).eq_nil

theorem resolveGap_eq (hs : ∀ v ∈ e.buffer.kept, Storable k v) (b : Batch) :
    ∃ pts, pts.toInt = e.drained.position ∧ resolveGap b e = .ok
      ({ e with
          pts := pts
          possibleGap := if e.drained.rest = [] then none
            else e.possibleGap.map fun gap => { gap with updates := e.drained.rest.reverse } },
        ⟨e.drained.delivered.map b.deliver,
          if e.drained.rest = [] then none else e.possibleGap.map PossibleGap.deadline⟩) := by
  cases hg : e.possibleGap with
  | none =>
    have hd : e.drained = ⟨e.pts.toInt, [], []⟩ := by
      simp [LiveEntry.drained, LiveEntry.buffer, hg, popOrder_nil, drain]
    refine ⟨e.pts, by rw [hd], ?_⟩
    simp only [resolveGap, hg, hd, List.map_nil, ↓reduceIte]
    rw [← hg]
  | some gap =>
    have hkept : e.buffer.kept = gap.updates := by simp [LiveEntry.buffer, hg]
    obtain ⟨pts, hp, hd⟩ := drainGap_eq (fun v hv => hs v (mem_popOrder.mp hv)) b e.pts
    refine ⟨pts, hp, ?_⟩
    rw [hkept] at hd
    simp only [resolveGap, hg, hd, bind, Except.bind, pure, Except.pure, List.isEmpty_iff,
      LiveEntry.drained, hkept]
    split
    next hr => simp
    next hr => simp

/-- The gap an entry is left with. -/
def LiveEntry.gapAfter (entry : LiveEntry) (update : Update) (now : Instant) : Option PossibleGap :=
  if (entry.accept update).1.kept = [] then none
  else some ⟨entry.gapDeadline now, (entry.accept update).1.kept⟩

/-- The arrival goes through the drain of the entry that the first comparison leaves. -/
theorem orderUpdate_spec (hu : Storable k u) (hf : PtsInfo.fromUpdate u = some info) (b : Batch)
    (e : LiveEntry) :
    ∃ e' ds, orderUpdate b info u e = (e', ds.map b.deliver) ∧
      e.accept u = (⟨e'.drained.position, e'.drained.rest.reverse⟩, ds ++ e'.drained.delivered) ∧
      (∀ v ∈ e'.buffer.kept, v = u ∨ v ∈ e.buffer.kept) ∧
      (e'.drained.rest ≠ [] → e'.possibleGap.map PossibleGap.deadline = some (e.gapDeadline b.now)) ∧
      ∀ pts gap, { e' with pts := pts, possibleGap := gap } = { e with
        pts := pts
        deadline := if updateSortKey u = e.pts.toInt then nextUpdatesDeadline b.now else e.deadline
        possibleGap := gap } := by
  obtain ⟨info', hf', _, hstart, hend⟩ := hu.ptsInfo
  obtain rfl := Option.some.inj (hf.symm.trans hf')
  rw [PtsInfo.start] at hstart
  have hdeadline : ∀ e' : LiveEntry, e'.possibleGap = e.possibleGap → e'.drained.rest ≠ [] →
      e'.possibleGap.map PossibleGap.deadline = some (e.gapDeadline b.now) := by
    intro e' hg hne
    cases hgap : e.possibleGap with
    | none =>
      refine absurd ?_ hne
      simp [LiveEntry.drained, LiveEntry.buffer, hg, hgap, popOrder_nil, drain]
    | some gap => simp [hg, hgap, LiveEntry.gapDeadline]
  unfold orderUpdate LiveEntry.accept arrive pending
  rcases lt_trichotomy (e.pts.toInt + info.count.toInt) info.pts.toInt with hlt | heq | hgt
  · have h1 : e.buffer.position < updateSortKey u := by simp only [LiveEntry.buffer]; omega
    have h2 : ¬updateSortKey u = e.pts.toInt := by omega
    rw [compare_lt_iff_lt.mpr hlt, if_pos h1, if_neg h2]
    refine ⟨_, [], rfl, ?_, ?_, ?_, fun _ _ => rfl⟩
    · cases hg : e.possibleGap <;> simp [LiveEntry.drained, LiveEntry.buffer, hg]
    · intro v hv
      cases hg : e.possibleGap with
      | none => simpa [LiveEntry.buffer, hg, maxHeldUpdates] using hv
      | some gap =>
        simp only [LiveEntry.buffer, hg, Option.getD_some, Option.map_some] at hv ⊢
        split at hv
        next => simpa [or_comm] using hv
        next => exact Or.inr hv
    · intro _
      cases hg : e.possibleGap <;> simp [LiveEntry.gapDeadline, hg]
  · have h1 : ¬e.buffer.position < updateSortKey u := by simp only [LiveEntry.buffer]; omega
    have h2 : updateSortKey u = e.pts.toInt := by omega
    rw [compare_eq_iff_eq.mpr heq, if_neg h1, if_pos h2]
    refine ⟨{ e with pts := info.pts, deadline := nextUpdatesDeadline b.now }, [u],
      by simp [Batch.deliver, hf], ?_, fun v hv => Or.inr hv, hdeadline _ rfl, fun _ _ => rfl⟩
    simp [drain, h2, hend, LiveEntry.drained, LiveEntry.buffer]
  · have h1 : ¬e.buffer.position < updateSortKey u := by simp only [LiveEntry.buffer]; omega
    have h2 : ¬updateSortKey u = e.pts.toInt := by omega
    have h3 : updateSortKey u < e.pts.toInt := by omega
    rw [compare_gt_iff_gt.mpr hgt, if_neg h1, if_neg h2]
    refine ⟨e, [], rfl, ?_, fun v hv => Or.inr hv, hdeadline e rfl, fun _ _ => rfl⟩
    simp [drain, h2, h3, LiveEntry.drained, LiveEntry.buffer]

/-- Applying an update to its entry is one arrival at the entry's buffer. -/
theorem applyToEntry_eq (hu : Storable k u) (hf : PtsInfo.fromUpdate u = some info)
    (hs : ∀ v ∈ e.buffer.kept, Storable k v) (b : Batch) :
    ∃ pts, pts.toInt = (e.accept u).1.position ∧ applyToEntry b info u e = .ok
      ({ e with
          pts := pts
          deadline := if updateSortKey u = e.pts.toInt then nextUpdatesDeadline b.now else e.deadline
          possibleGap := e.gapAfter u b.now },
        ⟨(e.accept u).2.map b.deliver, (e.gapAfter u b.now).map PossibleGap.deadline⟩) := by
  obtain ⟨e', ds, horder, haccept, hkept, hdeadline, he'⟩ := orderUpdate_spec hu hf b e
  have hs' : ∀ v ∈ e'.buffer.kept, Storable k v := by
    intro v hv
    rcases hkept v hv with rfl | hv
    · exact hu
    · exact hs v hv
  obtain ⟨pts, hp, hr⟩ := resolveGap_eq hs' b
  refine ⟨pts, by rw [haccept, hp], ?_⟩
  simp only [applyToEntry, horder, hr, bind, Except.bind, pure, Except.pure, haccept,
    LiveEntry.gapAfter, List.reverse_eq_nil_iff, he', List.map_append]
  by_cases hrest : e'.drained.rest = []
  · simp [hrest]
  · obtain ⟨gap, hg, hgd⟩ := Option.map_eq_some_iff.mp (hdeadline hrest)
    simp [hrest, hg, hgd]

/-- What an arrival delivers links the position before it to the one after it. -/
theorem accept_chain (e : LiveEntry) (u : Update) :
    Chain updateSortKey updateEnd e.pts.toInt (e.accept u).2 (e.accept u).1.position :=
  arrive_chain (b := e.buffer)

theorem accept_kept_storable (hu : Storable k u) (hs : ∀ v ∈ e.buffer.kept, Storable k v) :
    ∀ v ∈ (e.accept u).1.kept, Storable k v := by
  intro v hv
  rcases arrive_kept_subset popOrder_perm hv with rfl | hv
  · exact hu
  · exact hs v hv

theorem accept_delivered_storable (hu : Storable k u) (hs : ∀ v ∈ e.buffer.kept, Storable k v) :
    ∀ v ∈ (e.accept u).2, Storable k v := by
  intro v hv
  rcases arrive_delivered_subset popOrder_perm hv with rfl | hv
  · exact hu
  · exact hs v hv

end Grammers
