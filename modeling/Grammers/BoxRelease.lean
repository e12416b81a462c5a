import Grammers.BoxArrival
import Grammers.BoxPostponed

namespace Grammers

open StableSort Reassembly LabelledPath

variable {b : Batch} {p p' : Processing} {u : Update} {us : List Update} {s s' : MessageBoxes}
  {e : LiveEntry} {k : Key} {c d : Int} {result : List (Update × State)} {now : Instant}

/-- An update of a channel that is not under recovery leaves recoveries and held updates alone. -/
theorem Processed.quiet (hp : Processed b p u p') (h : p.boxes.Inv) (hf : b.force = [])
    (hu : Storable (.channel c) u) (hnot : p.boxes.isGettingDiff (.channel c) = false) :
    p'.boxes.heldUpdates = p.boxes.heldUpdates ∧
      ∀ k, p'.boxes.isGettingDiff k = p.boxes.isGettingDiff k := by
  cases hp with
  | tooLongPending => exact absurd rfl (hu.ordinary _ _)
  | tooLong => exact absurd rfl (hu.ordinary _ _)
  | unordered => exact ⟨rfl, fun _ => rfl⟩
  | forced _ _ hk => simp [hf] at hk
  | @postponed u info hst _ _ hpend =>
    have hk := Option.some.inj (hst.update_key.symm.trans hu.update_key)
    rw [hk, hnot] at hpend
    simp at hpend
  | preLogin => exact ⟨rfl, fun _ => rfl⟩
  | @applied u info pts hst _ _ hpend =>
    obtain ⟨_, hkey⟩ := target_ok h b info
    have hkey' : ((p.target b info).after b u pts).key = info.key := hkey
    refine ⟨rfl, fun k => ?_⟩
    have hentry := MessageBoxes.entry_setEntry_of_key h.sorted ((p.target b info).after b u pts) hkey' k
    show (MessageBoxes.entry (p.boxes.setEntry ((p.target b info).after b u pts)) k).any _ = _
    rw [hentry]
    split
    next hk =>
      rw [hk, hpend]
      show (p.target b info).recoveryPending = false
      unfold Processing.target
      cases he : p.boxes.entry info.key with
      | none => rfl
      | some e => rwa [MessageBoxes.isGettingDiff_of_entry he] at hpend
    next => rfl

theorem Processed.path_quiet (hp : Path (Processed b) p us p') (h : p.boxes.Inv)
    (ha : p.boxes.Account) (hf : b.force = [])
    (hu : ∀ u ∈ us, ∃ c, Storable (.channel c) u ∧ p.boxes.isGettingDiff (.channel c) = false) :
    p'.boxes.heldUpdates = p.boxes.heldUpdates ∧
      ∀ k, p'.boxes.isGettingDiff k = p.boxes.isGettingDiff k := by
  induction hp with
  | nil => exact ⟨rfl, fun _ => rfl⟩
  | @cons p p1 p2 u us hstep _ ih =>
    obtain ⟨c, hst, hnot⟩ := hu u (by simp)
    obtain ⟨hi, hacc⟩ := hstep.inv h ha
    obtain ⟨hh1, hg1⟩ := hstep.quiet h hf hst hnot
    have htail : ∀ v ∈ us, ∃ c, Storable (.channel c) v ∧
        p1.boxes.isGettingDiff (.channel c) = false := by
      intro v hv
      obtain ⟨c', hst', hnot'⟩ := hu v (by simp [hv])
      exact ⟨c', hst', (hg1 _).trans hnot'⟩
    obtain ⟨hh2, hg2⟩ := ih hi hacc htail
    exact ⟨hh2.trans hh1, fun k => (hg2 k).trans (hg1 k)⟩

namespace MessageBoxes

/-! What is released. -/

theorem heldOf_released (s : MessageBoxes) (d : Int) :
    s.released.heldOf d = if s.isGettingDiff (.channel d) then s.heldOf d else [] := by
  unfold heldOf released
  rw [List.filter_filter]
  split
  next hp =>
    congr 1
    refine List.filter_congr fun held _ => ?_
    by_cases hd : held.1 = d
    · simp [hd, hp]
    · simp [hd]
  next hp =>
    refine (List.map_eq_nil_iff).mpr (List.filter_eq_nil_iff.mpr fun held _ => ?_)
    simp only [Bool.and_eq_true, decide_eq_true_eq, not_and]
    rintro rfl
    exact hp

theorem releasedUpdates_storable (h : s.Inv) : ∀ u ∈ s.releasedUpdates,
    ∃ c, Storable (.channel c) u ∧ s.isGettingDiff (.channel c) = false := by
  intro u hu
  obtain ⟨held, hm, rfl⟩ := List.mem_map.mp hu
  obtain ⟨hm, hfree⟩ := List.mem_filter.mp hm
  simp only [Bool.and_eq_true, Bool.not_eq_true'] at hfree
  exact ⟨held.1, h.heldOk held hm, hfree.1⟩

/-- A channel whose held updates lie at or past its position has all of them released. -/
theorem filter_releasedUpdates (h : s.Inv) (he : s.entry (.channel c) = some e)
    (hnot : e.recoveryPending = false) (hge : ∀ u ∈ s.heldOf c, e.pts.toInt ≤ updateSortKey u) :
    s.releasedUpdates.filter (fun u => u.key = some (.channel c)) = s.heldOf c := by
  unfold releasedUpdates heldOf
  rw [List.filter_map, List.filter_filter]
  congr 1
  refine List.filter_congr fun held hm => ?_
  have hst := h.heldOk held hm
  simp only [Function.comp, hst.update_key]
  by_cases hc : held.1 = c
  · have hfree : s.isGettingDiff (.channel c) = false := by
      rw [isGettingDiff_of_entry he, hnot]
    have huncovered : s.isCovered c held.2 = false := by
      obtain ⟨info, hf, _, hstart, _⟩ := hst.ptsInfo
      have := hge held.2 (List.mem_map.mpr ⟨held, List.mem_filter.mpr ⟨hm, decide_eq_true hc⟩, rfl⟩)
      rw [hstart, PtsInfo.start] at this
      simp only [isCovered, he, Option.any_some, hf, decide_eq_false_iff_not]
      omega
    simp [hfree, huncovered, hc]
  · simp [hc]

/-- What one release does for a channel whose held updates chain on to its position. -/
theorem takeReleasedUpdates_spec (h : s.Good) (hr : s.heldReleaseReady = true)
    (he : s.entry (.channel c) = some e) (hnot : e.recoveryPending = false) {q : Int}
    (hchain : Chain updateSortKey updateEnd e.pts.toInt (s.heldOf c) q)
    (hbeyond : ∀ u ∈ e.buffer.kept, q < updateSortKey u) (hasc : Ascending updateSortKey (s.heldOf c))
    (now : Instant) :
    ∃ s' result e', s.takeReleasedUpdates now = .ok (s', result) ∧
      s'.entry (.channel c) = some e' ∧ e'.recoveryPending = false ∧ e'.pts.toInt = q ∧
      e'.buffer.kept.Perm e.buffer.kept ∧
      ((((result.map UpdateAndPeers.updates).getD []).filter (names (.channel c))).map Prod.fst) =
        s.heldOf c ∧
      (∀ d, s'.isGettingDiff (.channel d) = s.isGettingDiff (.channel d)) ∧
      ∀ d, s'.heldOf d = if s.isGettingDiff (.channel d) then s.heldOf d else [] := by
  have hstorable := heldOf_storable (c := c) h.toInv
  have hle : ∀ u ∈ s.heldOf c, updateSortKey u ≤ updateEnd u := fun u hu => (hstorable u hu).range.2
  have hge : ∀ u ∈ s.heldOf c, e.pts.toInt ≤ updateSortKey u := fun u hu =>
    (chain_bounds hchain hle hu).1
  have hfilter := filter_releasedUpdates h.toInv he hnot hge
  rcases takeReleasedUpdates_eq h hr now with ⟨hnil, hrun⟩ | ⟨s', result, hrun, hb⟩
  · rw [hnil, List.filter_nil] at hfilter
    rw [← hfilter] at hchain
    refine ⟨s.released, none, e, hrun, he, hnot, (Path.nil_iff.mp hchain).symm, List.Perm.refl _, ?_,
      fun _ => rfl, heldOf_released s⟩
    exact hfilter
  · have hg := h.released
    have hall : ∀ u ∈ s.releasedUpdates, u.key = some (.channel c) → Storable (.channel c) u := by
      intro u hu hk
      obtain ⟨c', hst, _⟩ := releasedUpdates_storable h.toInv u hu
      obtain rfl := Key.channel.inj (Option.some.inj (hst.update_key.symm.trans hk))
      exact hst
    obtain ⟨e', he', hnot', haccept⟩ := hb.arrivals hg.toInv hg.account rfl
      (show s.released.entry (.channel c) = some e from he) hnot hall
    rw [filter_sortByKey (by rw [hfilter]; exact hasc), hfilter] at haccept
    have harrive : (e.acceptAll (s.heldOf c)).2 = s.heldOf c ∧
        (e.acceptAll (s.heldOf c)).1.position = q ∧
        (e.acceptAll (s.heldOf c)).1.kept.Perm e.buffer.kept :=
      arriveAll_chain popOrder_perm hchain hle hbeyond
    rw [haccept] at harrive
    obtain ⟨h1, h2, h3⟩ := harrive
    obtain ⟨p, hp, rfl, hs⟩ := hb
    have hquiet := Processed.path_quiet hp hg.toInv hg.account rfl fun u hu =>
      releasedUpdates_storable h.toInv u (mem_sortUpdatesByKey.mp hu)
    have hheld : s'.heldUpdates = s.released.heldUpdates ∧
        ∀ k, s'.isGettingDiff k = s.released.isGettingDiff k := by
      rcases hs with rfl | rfl
      · exact hquiet
      · exact hquiet
    refine ⟨s', _, e', hrun, he', hnot', h2, h3, h1, fun d => hheld.2 _, fun d => ?_⟩
    rw [← heldOf_released, heldOf, heldOf, hheld.1]

/-- A channel whose recovery has ended: of the updates held for it those that chain on
to its position stay held, and those beyond wait in its gap. -/
structure Ended (s : MessageBoxes) (c : Int) (pts : Int32) (s' : MessageBoxes) : Prop where
  ready : s'.heldReleaseReady = s.heldReleaseReady
  held : s'.heldUpdates = (s.heldUpdates.filter fun held => held.1 ≠ c) ++
    (s.heldDrain c pts).delivered.map fun u => (c, u)
  entry : ∃ e, s'.entry (.channel c) = some e ∧ e.recoveryPending = false ∧ e.pts = pts ∧
    e.buffer.kept = (s.heldDrain c pts).rest

theorem Ended.heldOf {pts : Int32} (h : Ended s c pts s') (d : Int) :
    s'.heldOf d = if d = c then (s.heldDrain c pts).delivered else s.heldOf d := by
  rw [MessageBoxes.heldOf, h.held, List.filter_append, List.filter_filter, List.filter_map,
    List.map_append]
  split
  next hd =>
    subst hd
    have hnone : (s.heldUpdates.filter fun held => decide (held.1 = d) && decide (held.1 ≠ d)) = [] :=
      List.filter_eq_nil_iff.mpr (by simp)
    have hfun : ((fun held : Int × Update => decide (held.1 = d)) ∘ fun u => (d, u)) = fun _ => true := by
      funext u
      simp
    rw [hnone, hfun, List.filter_true, List.map_map]
    simp [Function.comp_def]
  next hd =>
    have hfun : ((fun held : Int × Update => decide (held.1 = d)) ∘ fun u => (c, u)) = fun _ => false := by
      funext u
      simpa using Ne.symm hd
    have hsame : (s.heldUpdates.filter fun held => decide (held.1 = d) && decide (held.1 ≠ c)) =
        s.heldUpdates.filter fun held => decide (held.1 = d) := by
      refine List.filter_congr fun held _ => ?_
      by_cases hh : held.1 = d
      · simp [hh, hd]
      · simp [hh]
    rw [hsame, hfun]
    simp [MessageBoxes.heldOf]

theorem ended_retainAndRetry (h : s.Good) (he : s.entry (.channel c) = some e)
    (hnot : e.recoveryPending = false) (hgap : e.possibleGap = none) (failures : Nat)
    (retryAt : Instant) :
    Ended s c e.pts ((s.retainContiguousHeldUpdates c e.pts).1.retryChannelAt (.channel c) failures
      (s.retainContiguousHeldUpdates c e.pts).2 retryAt) := by
  have hk : e.key = .channel c := h.entry_key he
  have h1 := h.toInv.retainContiguousHeldUpdates c e.pts
  rw [retainContiguousHeldUpdates_eq h.toInv] at h1 ⊢
  rw [retryChannelAt_eq h1.sorted he]
  refine ⟨rfl, rfl, e.backedOff failures (s.heldDrain c e.pts).rest retryAt, ?_, hnot, rfl, ?_⟩
  · have hkey : (e.backedOff failures (s.heldDrain c e.pts).rest retryAt).key = .channel c := hk
    exact (entry_setEntry_of_key h1.sorted _ hkey _).trans (if_pos rfl)
  · cases hr : (s.heldDrain c e.pts).rest with
    | nil => simp [LiveEntry.buffer, LiveEntry.backedOff, hgap]
    | cons u us => simp [LiveEntry.buffer, LiveEntry.backedOff]

theorem ended_finishChannelDifference (h : s.Good) (he : s.entry (.channel c) = some e)
    (hnot : e.recoveryPending = false) (hgap : e.possibleGap = none) {diff : ChannelDifferenceParts}
    (hf : diff.isFinal = true) (hpts : e.pts = diff.pts) (failures : Nat) (now : Instant) :
    Ended s c diff.pts (s.finishChannelDifference c diff failures now) := by
  obtain ⟨t, ht⟩ : ∃ t, t = timeoutDeadline diff.timeout now := ⟨_, rfl⟩
  have h1 := h.resetDeadline (.channel c) t
  have he1 : (s.resetDeadline (.channel c) t).entry (.channel c) = some { e with deadline := t } := by
    rw [entry_resetDeadline h.sorted, if_pos rfl, he]
    rfl
  obtain ⟨hheld, hready⟩ := resetDeadline_held s (.channel c) t
  have hdrain : (s.resetDeadline (.channel c) t).heldDrain c = s.heldDrain c := by
    funext pts
    rw [heldDrain, heldDrain, heldOf, heldOf, hheld]
  have hback : ∀ {s' : MessageBoxes}, Ended (s.resetDeadline (.channel c) t) c diff.pts s' →
      Ended s c diff.pts s' := by
    intro s' hend
    exact ⟨hend.ready.trans hready, by rw [hend.held, hheld, hdrain], hdrain ▸ hend.entry⟩
  refine hback ?_
  unfold MessageBoxes.finishChannelDifference
  simp only [resetTimeout, ← ht, hf, ↓reduceIte]
  split
  next hnil =>
    rw [retainContiguousHeldUpdates_eq h1.toInv] at hnil ⊢
    refine ⟨rfl, rfl, { e with deadline := t }, he1, hnot, hpts, ?_⟩
    have hrest : ((s.resetDeadline (.channel c) t).heldDrain c diff.pts).rest = [] :=
      List.isEmpty_iff.mp hnil
    rw [hrest]
    simp [LiveEntry.buffer, hgap]
  next =>
    have := ended_retainAndRetry h1 he1 hnot hgap (saturatingSucc failures)
      (now + channelRetryDelay (saturatingSucc failures))
    rw [show ({ e with deadline := t } : LiveEntry).pts = diff.pts from hpts] at this
    exact this

end MessageBoxes

/-- What becomes of the updates held when the recovery of a channel ends at a position,
once what can be is released: those of the channel are returned as a chain from that
position, left in its gap beyond the chain, or lie behind its end; those of channels
still under recovery stay as they are. -/
structure Released (c : Int) (p : Int) (held : List (Int × Update)) (s : MessageBoxes)
    (returned : List (Update × State)) : Prop where
  split : ∃ e chain behind beyond, s.entry (.channel c) = some e ∧ e.recoveryPending = false ∧
    ((held.filter fun h => h.1 = c).map Prod.snd).Perm (chain ++ (behind ++ beyond)) ∧
    (returned.filter (names (.channel c))).map Prod.fst = chain ∧
    Path (Follows (.channel c)) p (returned.filter (names (.channel c))) e.pts.toInt ∧
    ((e.possibleGap.map PossibleGap.updates).getD []).Perm beyond ∧
    (∀ u ∈ beyond, ∃ info, PtsInfo.fromUpdate u = some info ∧
      e.pts.toInt + info.count.toInt < info.pts.toInt) ∧
    ∀ u ∈ behind, ∃ info, PtsInfo.fromUpdate u = some info ∧
      info.pts.toInt < e.pts.toInt + info.count.toInt
  own : s.heldOf c = []
  others : ∀ d, d ≠ c → s.heldOf d = if s.isGettingDiff (.channel d) then
    (held.filter fun h => h.1 = d).map Prod.snd else []

/-- The updates a release returns. -/
def returned (result : Option UpdateAndPeers) : List (Update × State) :=
  (result.map UpdateAndPeers.updates).getD []

open MessageBoxes in
theorem MessageBoxes.Ended.released {pts : Int32} (hend : Ended s c pts s') (h : s.Inv)
    (h' : s'.Good) (hready : s'.heldReleaseReady = true) (now : Instant) :
    ∃ s'' result, s'.takeReleasedUpdates now = .ok (s'', result) ∧
      Released c pts.toInt s.heldUpdates s'' (returned result) := by
  obtain ⟨e, he, hnot, rfl, hkept⟩ := hend.entry
  have hown := hend.heldOf c
  rw [if_pos rfl] at hown
  have hchain : Chain updateSortKey updateEnd e.pts.toInt (s'.heldOf c)
      (s.heldDrain c e.pts).position := by
    rw [hown]
    exact drain_chain _ _ _ _
  have hasc : Ascending updateSortKey (s'.heldOf c) := by
    rw [hown]
    exact (sortByKey_ascending updateSortKey (s.heldOf c)).sublist (drain_delivered_sublist _ _ _ _)
  have hbeyond : ∀ u ∈ e.buffer.kept, (s.heldDrain c e.pts).position < updateSortKey u :=
    hkept ▸ heldDrain_rest_beyond c e.pts
  obtain ⟨s'', result, e', hrun, he', hnot', hpos, hgap, hreturned, hpend, hheld⟩ :=
    takeReleasedUpdates_spec h' hready he hnot hchain hbeyond hasc now
  refine ⟨s'', result, hrun, ?_, ?_, ?_⟩
  · have hst := sorted_heldOf_storable (c := c) h
    obtain ⟨behind, hperm, hbehind⟩ := drain_partition (p := e.pts.toInt)
      fun u hu => (hst u hu).range.2
    have hmem : ∀ u ∈ behind, u ∈ sortByKey updateSortKey (s.heldOf c) := fun u hu =>
      hperm.mem_iff.mpr (by simp [hu])
    obtain ⟨s1, delivered, hexec, _, hcont⟩ := SocketCall.exec_continued h' .takeReleasedUpdates now
    simp only [SocketCall.exec, hrun] at hexec
    obtain ⟨rfl, rfl⟩ := Prod.mk.inj (Except.ok.inj hexec)
    obtain ⟨e1, he1, hpath⟩ := (hcont (.channel c)).known e he
    obtain rfl := Option.some.inj (he'.symm.trans he1)
    refine ⟨e', (s.heldDrain c e.pts).delivered, behind, (s.heldDrain c e.pts).rest, he', hnot',
      (sortByKey_perm updateSortKey (s.heldOf c)).symm.trans hperm, hreturned.trans hown, hpath,
      hgap.trans (hkept ▸ List.Perm.refl _), ?_, ?_⟩
    · intro u hu
      obtain ⟨info, hf, _, hstart, _⟩ := (heldDrain_rest_storable h e.pts u hu).ptsInfo
      have := heldDrain_rest_beyond c e.pts u hu
      rw [hstart, PtsInfo.start] at this
      exact ⟨info, hf, by omega⟩
    · intro u hu
      obtain ⟨info, hf, _, hstart, _⟩ := (hst u (hmem u hu)).ptsInfo
      have : updateSortKey u < (s.heldDrain c e.pts).position := hbehind u hu
      rw [hstart, PtsInfo.start] at this
      exact ⟨info, hf, by omega⟩
  · rw [hheld, isGettingDiff_of_entry he, hnot]
    rfl
  · intro d hd
    rw [hheld, hpend, hend.heldOf, if_neg hd]
    rfl

open MessageBoxes in
/-- No update held for a channel vanishes when its recovery ends: after a final
difference without updates of the channel, or a temporary failure, one release
accounts for all of them. Only what the difference's own updates postpone takes their
place at the limit of held updates. -/
theorem ended_recovery_released {s : MessageBoxes} (h : Reachable s) {c : Int} {e : LiveEntry}
    (hc : s.channelInDiff = some c) (he : s.entry (.channel c) = some e) (now later : Instant) :
    (∀ difference diff, adaptChannelDifference difference = .ok diff → diff.isFinal = true →
      (∀ u ∈ diff.otherUpdates, u.key ≠ some (.channel c)) →
      (∀ held ∈ s.postponedBy c diff now, held.1 ≠ c ∧
        ∃ u ∈ diff.otherUpdates, u.key = some (.channel held.1)) ∧
      ∃ s1 result s2 release, s.applyChannelDifference difference now = .ok (s1, result) ∧
        s1.takeReleasedUpdates later = .ok (s2, release) ∧
        Released c diff.pts.toInt
          (latest maxHeldUpdates (s.heldUpdates ++ s.postponedBy c diff now)) s2
          (returned release)) ∧
      ∃ s1 s2 release, s.endChannelDifference .temporaryServerIssues now = .ok s1 ∧
        s1.takeReleasedUpdates later = .ok (s2, release) ∧
        Released c e.pts.toInt s.heldUpdates s2 (returned release) := by
  have hg := h.good
  obtain ⟨e', he', hp, hd⟩ := hg.toInv.channelInDiff hc
  obtain rfl := Option.some.inj (he.symm.trans he')
  refine ⟨?_, ?_⟩
  · intro difference diff hadapt hfinal hother
    obtain ⟨b, s1, s2, result, hrun1, hnow, hforce, hdate, hseq, hbatch, hb, hrun⟩ :=
      applyChannelDifference_eq hg hc he hadapt now
    obtain ⟨s1', hrun1', h1, hheld1, _, _, hentry, _, hready1⟩ :=
      beginChannelDifference_eq hg he hp hd diff now
    obtain rfl := Except.ok.inj (hrun1.symm.trans hrun1')
    have he1 : s1.entry (.channel c) = some (e.answered diff now) := by rw [hentry, if_pos rfl]
    obtain ⟨e2, he2, hsteady, hpend⟩ := entry_after_difference h1 he1 hb hforce
    obtain ⟨hi2, ha2⟩ := hb.inv h1.toInv h1.account
    obtain ⟨hready2, hheld2, hmore⟩ := held_after_difference hrun1 h1 he1 rfl hnow hforce hdate hseq
      hbatch
    have hnot : e2.recoveryPending = false := by
      by_contra hne
      rcases hpend (by simpa using hne) with hbad | ⟨pts, hm⟩
      · simp [LiveEntry.answered, hfinal] at hbad
      · exact hother _ (List.mem_filter.mp hm).1 rfl
    have hend := ended_finishChannelDifference ⟨hi2, ha2⟩ he2 hnot (hsteady.gap rfl) hfinal
      hsteady.pts e.recoveryFailures now
    have hgood := Good.finishChannelDifference ⟨hi2, ha2⟩ he2 hsteady.pts e.recoveryFailures now
    obtain ⟨s3, release, hrelease, hrel⟩ := hend.released hi2 hgood
      (hend.ready.trans (hready2.trans (hready1 hfinal))) later
    rw [hheld2, hheld1] at hrel
    exact ⟨hmore, _, _, s3, release, hrun, hrelease, hrel⟩
  · obtain ⟨s1, h1, hheld, hready, hentry, _, hrun⟩ :=
      endChannelDifference_eq hg hc he .temporaryServerIssues now
    have he1 : s1.entry (.channel c) = some (LiveEntry.ended { e with possibleGap := none } now) := by
      rw [hentry, if_pos rfl]
    have hend := ended_retainAndRetry h1 he1 rfl rfl (saturatingSucc e.recoveryFailures)
      (now + channelRetryDelay (saturatingSucc e.recoveryFailures))
    have hgood := h1.retainAndRetry he1 (saturatingSucc e.recoveryFailures)
      (now + channelRetryDelay (saturatingSucc e.recoveryFailures))
    obtain ⟨s2, release, hrelease, hrel⟩ := hend.released h1.toInv hgood (hend.ready.trans hready) later
    rw [hheld] at hrel
    exact ⟨_, s2, release, hrun, hrelease, hrel⟩

/-- Two updates held for a channel at position 3, one that follows it and one that does not:
the first is released, and the second waits in the channel's gap, whether the recovery ends
with a difference that postpones an update of another channel or with a temporary failure. -/
theorem ended_recovery_released_both :
    ∃ (s : MessageBoxes) (diff : ChannelDifferenceParts), Reachable s ∧
      s.heldUpdates = [(7, .deleteChannelMessages 7 [] 4 1), (7, .deleteChannelMessages 7 [] 9 1)] ∧
      s.postponedBy 7 diff 0 = [(9, .deleteChannelMessages 9 [] 4 1)] ∧
      (∃ s1 result s2 release, s.applyChannelDifference (.difference diff) 0 = .ok (s1, result) ∧
        s1.takeReleasedUpdates 0 = .ok (s2, release) ∧
        Released 7 3 (latest maxHeldUpdates (s.heldUpdates ++ s.postponedBy 7 diff 0)) s2
          (returned release) ∧
        (returned release).map Prod.fst = [.deleteChannelMessages 7 [] 4 1] ∧
        s2.heldOf 9 = [.deleteChannelMessages 9 [] 4 1]) ∧
      ∃ s1 s2 release, s.endChannelDifference .temporaryServerIssues 0 = .ok s1 ∧
        s1.takeReleasedUpdates 0 = .ok (s2, release) ∧
        Released 7 3 s.heldUpdates s2 (returned release) ∧
        (returned release).map Prod.fst = [.deleteChannelMessages 7 [] 4 1] := by
  let start : Config := ⟨0, .load ⟨5, 0, 1, 1, [⟨7, 3⟩, ⟨9, 3⟩]⟩ 0⟩
  let ops : List (Instant × Op) := [(0, .processUpdates (.updates (.updates
    [.deleteChannelMessages 7 [] 9 1, .deleteChannelMessages 7 [] 4 1] [] [] 0 0)))]
  let s := ((runOps start ops).getD start).boxes
  let diff : ChannelDifferenceParts :=
    ⟨true, 3, none, [], [.deleteChannelMessages 9 [] 4 1], [], []⟩
  have hreach : Reachable s :=
    reachable_runOps (.load ⟨5, 0, 1, 1, [⟨7, 3⟩, ⟨9, 3⟩]⟩ 0) (by decide)
  have he : s.entry (.channel 7) =
      some (MessageBoxes.restored (.channel 7) 3 (nextUpdatesDeadline 0)) := by decide
  have hboth := ended_recovery_released hreach (show s.channelInDiff = some 7 by decide) he 0 0
  obtain ⟨_, s1, result, s2, release, h1, h2, hrel⟩ :=
    hboth.1 (.difference diff) diff rfl rfl (by decide)
  obtain ⟨s3, s4, release', h3, h4, hrel'⟩ := hboth.2
  have hdiff : (do
      let applied ← s.applyChannelDifference (.difference diff) 0
      let taken ← applied.1.takeReleasedUpdates 0
      return ((returned taken.2).map Prod.fst, taken.1.heldOf 9)) =
        .ok ([.deleteChannelMessages 7 [] 4 1], [.deleteChannelMessages 9 [] 4 1]) := by decide
  have hend : (do
      let s1 ← s.endChannelDifference .temporaryServerIssues 0
      let taken ← s1.takeReleasedUpdates 0
      return (returned taken.2).map Prod.fst) = .ok [.deleteChannelMessages 7 [] 4 1] := by decide
  simp only [h1, h2, bind, Except.bind, pure, Except.pure] at hdiff
  simp only [h3, h4, bind, Except.bind, pure, Except.pure] at hend
  obtain ⟨hout, hheld⟩ := Prod.mk.inj (Except.ok.inj hdiff)
  exact ⟨s, diff, hreach, by decide, by decide, ⟨s1, result, s2, release, h1, h2, hrel, hout, hheld⟩,
    s3, s4, release', h3, h4, hrel', Except.ok.inj hend⟩

/-- A channel whose recovery ended earlier, and whose updates were not released then, has
them released along with those of the next channel. -/
theorem earlier_ended_channel_released :
    ∃ s, Reachable s ∧ s.channelInDiff = some 9 ∧ s.heldOf 7 = [.deleteChannelMessages 7 [] 4 1] ∧
      (do
        let s1 ← s.endChannelDifference .temporaryServerIssues 0
        let (s2, _) ← s1.takeReleasedUpdates 0
        return s2.heldOf 7) = .ok [] := by
  let start : Config := ⟨0, .load ⟨5, 0, 1, 1, [⟨7, 3⟩, ⟨9, 3⟩]⟩ 0⟩
  let ops : List (Instant × Op) := [(0, .processUpdates (.updates (.updates
    [.deleteChannelMessages 7 [] 4 1] [] [] 0 0))), (0, .endChannelDifference .temporaryServerIssues)]
  have hreach : Reachable ((runOps start ops).getD start).boxes :=
    reachable_runOps (.load ⟨5, 0, 1, 1, [⟨7, 3⟩, ⟨9, 3⟩]⟩ 0) (by decide)
  exact ⟨_, hreach, by decide, by decide, by decide⟩

end Grammers
