import Grammers.BoxDeadline
import Grammers.BoxExclusion

namespace Grammers

open LabelledPath

/-- Whether an account difference makes a sequence known that was not. -/
def Difference.Creates (s : MessageBoxes) : Difference → Prop
  | .empty _ _ => False
  | .tooLong _ => s.entry .common = none
  | .difference _ | .slice _ => s.entry .common = none ∨ s.entry .secondary = none

/-- An account difference that makes a sequence known does so while the cached deadline
covers it, or ends a recovery of the account, which lowers it. -/
def Difference.Punctual (s : MessageBoxes) (now : Instant) (difference : Difference) : Prop :=
  difference.Creates s → s.nextDeadline ≤ nextUpdatesDeadline now ∨
    (s.isGettingDiff .common = true ∨ s.isGettingDiff .secondary = true) ∧
      ∃ parts, difference = .difference parts

/-- A channel is only retried without delay while nothing is overdue. -/
def MessageBoxes.RetryPunctual (s : MessageBoxes) (c : Int) (now : Instant) : Prop :=
  ∀ e, s.entry (.channel c) = some e → e.possibleGap.isSome = true → now ≤ e.deadline ∧
    ∀ k e', k ≠ .channel c → s.entry k = some e' → e'.isWaiting = true → now ≤ e'.effectiveDeadline

/-- Calls that make no entry that is due before the cached deadline, and raise it past none. -/
def Op.Punctual (s : MessageBoxes) (now : Instant) : Op → Prop
  | .trySetChannelState id _ =>
    s.entry (.channel id) = none → s.nextDeadline ≤ nextUpdatesDeadline now
  | .applyDifference difference => difference.Punctual s now
  | .tryApplyDifference difference =>
    s.isGettingDiff .common = true ∨ s.isGettingDiff .secondary = true → difference.isValid = true →
      difference.Punctual s now
  | .retryChannelWithoutDelay channelId => s.RetryPunctual channelId now
  | _ => True

/-- Pending recoveries do not end in a batch. -/
theorem Processed.pending {b : Batch} {p p' : Processing} {u : Update} {k : Key}
    (hp : Processed b p u p') (h : p.boxes.Inv) (hk : p.boxes.isGettingDiff k = true) :
    p'.boxes.isGettingDiff k = true := by
  by_cases hu : u.key = some k
  · cases hp with
    | tooLongPending => exact hk
    | tooLong hnot =>
      obtain rfl := Option.some.inj hu
      simp [hk] at hnot
    | unordered => exact hk
    | @forced u info =>
      unfold MessageBoxes.isGettingDiff at hk ⊢
      rw [MessageBoxes.entry_resetDeadline h.sorted]
      split
      next heq =>
        subst heq
        simpa [Option.any_map] using hk
      next => exact hk
    | @postponed u info =>
      obtain ⟨_, _, hs⟩ := MessageBoxes.postpone_eq h info.key u
      simp only [hs]
      exact hk
    | preLogin => exact hk
    | applied hst _ _ hnot =>
      obtain rfl := Option.some.inj (hst.update_key.symm.trans hu)
      simp [hk] at hnot
  · unfold MessageBoxes.isGettingDiff at hk ⊢
    rwa [hp.entry_other h hu]

theorem Batched.pending {b : Batch} {s s' : MessageBoxes} {us : List Update}
    {result : List (Update × State)} {k : Key} (hb : Batched b s us s' result) (h : s.Inv)
    (ha : s.Account) (hk : s.isGettingDiff k = true) : s'.isGettingDiff k = true := by
  obtain ⟨p, hp, _, hs⟩ := hb
  have hpend := (hp.invariant (I := fun q => q.boxes.isGettingDiff k = true ∧ q.boxes.Inv ∧
    q.boxes.Account) (fun _ _ _ hq hstep => ⟨hstep.pending hq.2.1 hq.1, hstep.inv hq.2.1 hq.2.2⟩)
    ⟨hk, h, ha⟩).1
  rcases hs with rfl | rfl
  · exact hpend
  · exact hpend

namespace MessageBoxes

variable {s s' : MessageBoxes} {e : LiveEntry} {k : Key} {c : Int} {d now : Instant}

theorem Covered.setPts (h : s.Covered d) (hs : s.Sorted) (pts : Int32)
    (hc : s.entry k = none → min s.nextDeadline d ≤ nextUpdatesDeadline now) :
    (s.setPts k pts now).Covered d := by
  rw [setPts_eq hs]
  refine Covered.congr (h.setEntry hs le_rfl ?_) rfl rfl
  cases he : s.entry k with
  | none => exact (LiveEntry.Waits.fresh k pts _).mono (hc he)
  | some e => exact h k e he

theorem isGettingDiff_setPts (hs : s.Sorted) (k k' : Key) (pts : Int32) :
    (s.setPts k pts now).isGettingDiff k' = s.isGettingDiff k' := by
  unfold isGettingDiff
  rw [entry_setPts hs]
  split
  next hk =>
    subst hk
    cases s.entry k' with
    | none => rfl
    | some e => rfl
  next => rfl

theorem Covered.beginDifference (h : s.Covered d) (hs : s.Sorted) (state : ServerState)
    (hc : s.entry .common = none ∨ s.entry .secondary = none →
      min s.nextDeadline d ≤ nextUpdatesDeadline now) : (s.beginDifference state now).Covered d := by
  have h0 : Covered { s with date := state.date, seq := state.seq } d := h.congr rfl rfl
  have h1 : (MessageBoxes.setPts { s with date := state.date, seq := state.seq } .common state.pts
      now).Covered d :=
    h0.setPts hs state.pts fun hn => hc (Or.inl hn)
  have heq := setPts_eq (s := { s with date := state.date, seq := state.seq }) hs .common state.pts now
  refine h1.setPts ?_ state.qts ?_
  · rw [heq]
    exact setEntry_sorted hs _
  · intro hn
    rw [entry_setPts (s := { s with date := state.date, seq := state.seq }) hs, if_neg (by simp)] at hn
    rw [heq]
    exact hc (Or.inr hn)

theorem isGettingDiff_beginDifference (hs : s.Sorted) (state : ServerState) (k : Key) :
    (s.beginDifference state now).isGettingDiff k = s.isGettingDiff k := by
  unfold MessageBoxes.beginDifference
  have heq := setPts_eq (s := { s with date := state.date, seq := state.seq }) hs .common state.pts now
  rw [isGettingDiff_setPts (by rw [heq]; exact setEntry_sorted hs _),
    isGettingDiff_setPts (s := { s with date := state.date, seq := state.seq }) hs]
  rfl

theorem Covered.endAccount (h : s.Covered d) (hi : s.Inv) (ht : s.Timed now)
    (hr : s.endAccount now = .ok s') : s'.Covered d ∧
      ((s.isGettingDiff .common = true ∨ s.isGettingDiff .secondary = true) →
        s'.nextDeadline ≤ nextUpdatesDeadline now) := by
  obtain ⟨s1, hr1, hi1, _, hentry1⟩ := hi.tryEndGetDiff .common now
  obtain ⟨s2, hr2, _⟩ := hi1.tryEndGetDiff .secondary now
  obtain rfl : s2 = s' := by simpa [MessageBoxes.endAccount, hr1, hr2, bind, Except.bind] using hr
  obtain ⟨h1, _, hp1⟩ := h.tryEndGetDiff hi ht hr1
  obtain ⟨h2, hle2, hp2⟩ := h1.tryEndGetDiff hi1 (ht.tryEndGetDiff hi hr1) hr2
  refine ⟨h2, ?_⟩
  rintro (hcommon | hsecondary)
  · exact hle2.trans (max_le (hp1 hcommon) le_rfl)
  · refine hp2 ?_
    unfold isGettingDiff at hsecondary ⊢
    rwa [hentry1, if_neg (by simp)]

theorem Cached.recovered (h : s.Cached) (hg : s.Good) (ht : s.Timed now) {difference : Difference}
    (hd : difference.Punctual s now) (hr : Recovered s now difference s') : s'.Cached := by
  have hbatch : ∀ {parts : DifferenceParts} {b : Batch} {us : List Update} {s1 : MessageBoxes}
      {result : List (Update × State)} (d : Instant), b.now = now → b.force = [.common, .secondary] →
      Batched b (s.beginDifference parts.state now) us s1 result →
      (s.entry .common = none ∨ s.entry .secondary = none →
        min s.nextDeadline d ≤ nextUpdatesDeadline now) → s1.Covered d := by
    intro parts b us s1 result d hnow hforce hb hc
    have h1 := hg.beginDifference parts.state now
    have ht1 := ht.beginDifference hg.sorted parts.state
    have hfree : (s.beginDifference parts.state now).Free b.force := by
      rw [hforce]
      exact h1.toInv.free_account
    exact hb.covered h1.toInv h1.account ht1 hfree ((h.covered d).beginDifference hg.sorted _ hc) hnow
  cases hr with
  | @empty date seq _ hr =>
    have h0 : Good { s with date := date, seq := seq } := hg.congr rfl rfl rfl rfl
    have ht0 : Timed { s with date := date, seq := seq } now := ht.congr rfl
    refine cached_iff.mpr fun d => ?_
    have hc0 : Covered { s with date := date, seq := seq } d := (h.covered d).congr rfl rfl
    exact (hc0.endAccount h0.toInv ht0 hr).1
  | @tooLong pts _ hr =>
    have h0 := hg.setPts (k := .common) (by simp) (by simp [Key.isChannel]) pts now
    refine cached_iff.mpr fun d => ?_
    refine (((h.covered d).setPts hg.sorted pts ?_).endAccount h0.toInv
      (ht.setPts hg.sorted .common pts) hr).1
    intro hn
    rcases hd hn with hle | ⟨_, _, hbad⟩
    · exact (min_le_left _ _).trans hle
    · simp at hbad
  | slice hnow hforce hb =>
    refine cached_iff.mpr fun d => hbatch d hnow hforce hb fun hn => ?_
    rcases hd hn with hle | ⟨_, _, hbad⟩
    · exact (min_le_left _ _).trans hle
    · simp at hbad
  | @difference parts b us s1 _ result hnow hforce hb hr =>
    have h1 := hg.beginDifference parts.state now
    obtain ⟨hi1, ha1⟩ := hb.inv h1.toInv h1.account
    have hfree : (s.beginDifference parts.state now).Free b.force := by
      rw [hforce]
      exact h1.toInv.free_account
    obtain ⟨ht1, _⟩ := hb.timed h1.toInv h1.account (ht.beginDifference hg.sorted parts.state) hfree hnow
    by_cases hlate : (s.entry .common = none ∨ s.entry .secondary = none) ∧
        nextUpdatesDeadline now < s.nextDeadline
    · -- the new entries stay uncovered until the recovery ends
      have hpend : s.isGettingDiff .common = true ∨ s.isGettingDiff .secondary = true := by
        rcases hd hlate.1 with hle | ⟨hpend, _⟩
        · exact absurd hle (not_le.mpr hlate.2)
        · exact hpend
      have hcover := hbatch (nextUpdatesDeadline now) hnow hforce hb fun _ => min_le_right _ _
      obtain ⟨hc', hnext⟩ := hcover.endAccount hi1 ht1 hr
      refine hc'.cached (hnext ?_)
      have hkeep : ∀ k, s.isGettingDiff k = true → s1.isGettingDiff k = true := fun k hk =>
        hb.pending h1.toInv h1.account (by rwa [isGettingDiff_beginDifference hg.sorted])
      exact hpend.imp (hkeep _) (hkeep _)
    · refine cached_iff.mpr fun d => ?_
      refine ((hbatch d hnow hforce hb fun hn => ?_).endAccount hi1 ht1 hr).1
      exact (min_le_left _ _).trans (not_lt.mp fun hlt => hlate ⟨hn, hlt⟩)

theorem Covered.retryChannelAt (h : s.Covered d) (hs : s.Sorted) (he : s.entry k = some e)
    (hg : e.possibleGap = none) {failures : Nat} {beyond : List Update} {retryAt : Instant}
    (hd : beyond.isEmpty = true → min s.nextDeadline d ≤ e.deadline) :
    (s.retryChannelAt k failures beyond retryAt).Covered d := by
  rw [retryChannelAt_eq hs he]
  refine h.setEntry hs ?_ ((LiveEntry.Waits.backedOff hg).mono ?_)
  · split
    next => exact le_rfl
    next => exact min_le_left _ _
  · split
    next hb => exact hd hb
    next => exact (min_le_left _ _).trans (min_le_right _ _)

theorem Covered.finishChannelDifference (h : s.Covered d) (hg : s.Good) {diff : ChannelDifferenceParts}
    (he : s.entry (.channel c) = some e) (hgap : e.possibleGap = none) (failures : Nat) :
    (s.finishChannelDifference c diff failures now).Covered d := by
  obtain ⟨t, ht⟩ : ∃ t, t = timeoutDeadline diff.timeout now := ⟨_, rfl⟩
  have h1 := h.resetDeadline hg.sorted (.channel c) t
  have hg1 := hg.resetDeadline (.channel c) t
  have he1 : (s.resetDeadline (.channel c) t).entry (.channel c) = some { e with deadline := t } := by
    rw [entry_resetDeadline hg.sorted, if_pos rfl, he]
    rfl
  unfold MessageBoxes.finishChannelDifference
  simp only [resetTimeout, ← ht, retainContiguousHeldUpdates_eq hg1.toInv, scheduleChannelRetry]
  split
  next =>
    split
    next => exact h1.congr rfl rfl
    next hne =>
      refine Covered.retryChannelAt (e := { e with deadline := t }) ?_ ?_ ?_ hgap ?_
      · exact h1.congr rfl rfl
      · exact hg1.sorted
      · exact he1
      · exact fun hnil => absurd hnil hne
  next =>
    unfold rotate
    split
    next => exact h1.congr rfl rfl
    next => exact h1

theorem Covered.applyChannelDifference (h : s.Covered d) (hg : s.Good) (ht : s.Timed now)
    {difference : ChannelDifference} {diff : ChannelDifferenceParts} {r : UpdateAndPeers}
    (hc : s.channelInDiff = some c) (ha : adaptChannelDifference difference = .ok diff)
    (hr : s.applyChannelDifference difference now = .ok (s', r)) : s'.Covered d := by
  obtain ⟨e, he, hp, hd⟩ := hg.toInv.channelInDiff hc
  obtain ⟨b, s1, s2, result, hrun1, hnow, hforce, _, _, _, hb, hrun⟩ :=
    applyChannelDifference_eq hg hc he ha now
  obtain ⟨s1', hrun1', h1, _, _, _, hentry, hnext, _⟩ := beginChannelDifference_eq hg he hp hd diff now
  obtain rfl := Except.ok.inj (hrun1.symm.trans hrun1')
  obtain ⟨rfl, _⟩ := Prod.mk.inj (Except.ok.inj (hr.symm.trans hrun))
  have he1 : s1.entry (.channel c) = some (e.answered diff now) := by rw [hentry, if_pos rfl]
  obtain ⟨ht1, hfree1⟩ := ht.answered hentry
  have hwaits : ∀ old ≤ s.nextDeadline, (diff.isFinal = true → old ≤ nextUpdatesDeadline now) →
      ∀ k e', s1.entry k = some e' → e'.Waits (min old d) := by
    intro old hold hfinal k e' he'
    rw [hentry] at he'
    split at he'
    next =>
      obtain rfl := Option.some.inj he'
      exact .answered e diff fun hf => (min_le_left _ _).trans (hfinal hf)
    next => exact (h k e' he').mono (min_le_min_right d hold)
  have hc1 : s1.Covered d := by
    cases hf : diff.isFinal with
    | true =>
      rw [hf, if_pos rfl] at hnext
      exact hnext.covered (hwaits _ (min_le_left _ _) fun _ => min_le_right _ _)
    | false =>
      rw [hf, if_neg (by simp)] at hnext
      intro k e' he'
      rw [hnext]
      exact hwaits _ le_rfl (by simp [hf]) k e' he'
  have hc2 := hb.covered h1.toInv h1.account ht1 (hforce ▸ hfree1) hc1 hnow
  obtain ⟨e2, he2, hsteady, _⟩ := entry_after_difference h1 he1 hb hforce
  obtain ⟨hi2, ha2⟩ := hb.inv h1.toInv h1.account
  exact hc2.finishChannelDifference ⟨hi2, ha2⟩ he2 (hsteady.gap rfl) _

theorem Covered.endChannelDifference (h : s.Covered d) (hg : s.Good) (hc : s.channelInDiff = some c)
    {reason : PrematureEndReason} (hr : s.endChannelDifference reason now = .ok s') :
    s'.Covered d := by
  obtain ⟨e, he, _⟩ := hg.toInv.channelInDiff hc
  obtain ⟨s1, h1, _, _, hentry, hl, hrun⟩ := endChannelDifference_eq hg hc he reason now
  obtain rfl := Except.ok.inj (hrun.symm.trans hr)
  have he1 : s1.entry (.channel c) = some (LiveEntry.ended { e with possibleGap := none } now) := by
    rw [hentry, if_pos rfl]
  have hc1 : s1.Covered d := by
    refine hl.covered fun k e' he' => ?_
    rw [hentry] at he'
    split at he'
    next =>
      obtain rfl := Option.some.inj he'
      refine (LiveEntry.Waits.ended rfl now).mono ?_
      exact (min_le_left _ _).trans (min_le_right _ _)
    next => exact (h k e' he').mono (min_le_min_right d (min_le_left _ _))
  cases reason with
  | temporaryServerIssues =>
    simp only [retainContiguousHeldUpdates_eq h1.toInv, scheduleChannelRetry]
    refine Covered.retryChannelAt (e := LiveEntry.ended { e with possibleGap := none } now)
      ?_ ?_ ?_ rfl ?_
    · exact hc1.congr rfl rfl
    · exact h1.sorted
    · exact he1
    · exact fun _ => (min_le_left _ _).trans hl.le
  | banned => exact hc1.popEntry h1.sorted _

theorem cached_scanDeadlines (hi : s.Inv) (now : Instant) : (s.scanDeadlines now).Cached := by
  intro k e he hw
  have hm := ((entry_eq_some_iff (hi.scanDeadlines now).sorted).mp he).1
  obtain ⟨_, hs⟩ := scanDeadlines_eq hi now
  rw [hs] at hm ⊢
  have hmem : e.effectiveDeadline ∈ (((s.entries.map (LiveEntry.roused · now)).filter
      LiveEntry.isWaiting).map LiveEntry.effectiveDeadline) :=
    List.mem_map_of_mem (List.mem_filter.mpr ⟨hm, hw⟩)
  exact List.min?_getD_le_of_mem hmem

theorem Cached.checkDeadlines (h : s.Cached) (hi : s.Inv) : (s.checkDeadlines now).2.Cached := by
  unfold MessageBoxes.checkDeadlines
  simp only
  split
  next => exact h
  next => exact cached_scanDeadlines hi now

theorem Cached.retryChannelWithoutDelay (h : s.Cached) (hi : s.Inv) (ht : s.Timed now)
    (he : s.entry (.channel c) = some e) (hd : s.RetryPunctual c now) :
    (s.retryChannelWithoutDelay c now).Cached := by
  have hk : (e.hurried now).key = .channel c := hi.entry_key (e := e) he
  rw [retryChannelWithoutDelay_eq hi he]
  intro k e' he'
  have he' := (entry_setEntry_of_key hi.sorted (e.hurried now) hk k).symm.trans he'
  cases hgap : e.possibleGap with
  | none =>
    show e'.Waits s.nextDeadline
    split at he'
    next =>
      obtain rfl := Option.some.inj he'
      exact (h _ e he).hurried (ht _ e he) (by simp [hgap])
    next => exact h k e' he'
  | some gap =>
    obtain ⟨hdue, hothers⟩ := hd e he (by simp [hgap])
    show e'.Waits now
    split at he'
    next =>
      obtain rfl := Option.some.inj he'
      intro _
      refine (LiveEntry.le_effectiveDeadline_iff _ _).mpr (Or.inl ⟨hdue, ?_⟩)
      intro gap' hg'
      simp only [LiveEntry.hurried, hgap, Option.map_some, Option.some.injEq] at hg'
      exact hg' ▸ le_rfl
    next hne => exact hothers k e' hne he'

theorem Cached.effect (h : s.Cached) (hg : s.Good) (ht : s.Timed now) {op : Op}
    (hd : op.Punctual s now) (heff : Effect s now op s') : s'.Cached := by
  cases heff with
  | same hentries hnext => exact cached_iff.mpr fun d => (h.covered d).congr hentries hnext
  | began => exact cached_iff.mpr fun d => (h.covered d).tryBeginGetDiff hg.toInv .common
  | batched h0 hentries hnext hnow hforce hb =>
    refine cached_iff.mpr fun d => ?_
    exact hb.covered h0.toInv h0.account (ht.congr hentries) (by simp [hforce, Free])
      ((h.covered d).congr hentries hnext) hnow
  | scanned => exact h.checkDeadlines hg.toInv
  | @stateSet state =>
    refine cached_iff.mpr fun d => ?_
    have hfresh : ∀ k pts, (LiveEntry.fresh k pts (nextUpdatesDeadline now)).Waits
        (min (min s.nextDeadline (nextUpdatesDeadline now)) d) := fun k pts =>
      (LiveEntry.Waits.fresh k pts _).mono ((min_le_left _ _).trans (min_le_right _ _))
    have h1 := (h.covered d).setEntry hg.sorted (min_le_left _ _) (hfresh .common state.pts)
    have hs1 := setEntry_sorted hg.sorted (.fresh .common state.pts (nextUpdatesDeadline now))
    exact Covered.congr (h1.setEntry hs1 le_rfl (hfresh .secondary state.qts)) rfl rfl
  | @channelSet id pts he =>
    rw [MessageBoxes.trySetChannelState, if_pos (by simp [he])]
    refine cached_iff.mpr fun d => ?_
    refine Covered.congr ((h.covered d).setEntry hg.sorted le_rfl ?_) rfl rfl
    exact (LiveEntry.Waits.fresh _ pts _).mono ((min_le_left _ _).trans (hd he))
  | account hop hr =>
    refine h.recovered hg ht ?_ hr
    rcases hop with rfl | ⟨rfl, hpend, hv⟩
    · exact hd
    · exact hd hpend hv
  | channel _ hc ha hr =>
    exact cached_iff.mpr fun d => (h.covered d).applyChannelDifference hg ht hc ha hr
  | @gaveUp _ c s0 s1 h0 hentries hnext hr =>
    obtain ⟨s2, hr2, hi2, _⟩ := h0.toInv.tryEndGetDiff (.channel c) now
    obtain rfl := Except.ok.inj (hr2.symm.trans hr)
    refine cached_iff.mpr fun d => ?_
    have h0c : s0.Covered d := (h.covered d).congr hentries hnext
    exact (h0c.tryEndGetDiff h0.toInv (ht.congr hentries) hr).1.popEntry hi2.sorted _
  | @postponed retryAfter c e he hready =>
    have hgap : e.possibleGap = none := (ht _ e he).gap (by
      simp only [LiveEntry.isReady, Bool.and_eq_true] at hready
      exact hready.1)
    rw [deferUntil_eq hg.toInv he]
    refine cached_iff.mpr fun d => ?_
    refine Covered.congr ((h.covered d).setEntry hg.sorted (min_le_left _ _) ?_) rfl rfl
    exact (LiveEntry.Waits.postponed hgap _).mono ((min_le_left _ _).trans (min_le_right _ _))
  | @accessible _ c e _ he hentries hnext =>
    refine cached_iff.mpr fun d => ?_
    have hwaits : LiveEntry.Waits { e with recoveryDeferrals := 0 } (min s.nextDeadline d) :=
      h.covered d _ e he
    exact Covered.congr ((h.covered d).setEntry hg.sorted le_rfl hwaits) hentries hnext
  | hurried he => exact h.retryChannelWithoutDelay hg.toInv ht he hd
  | ended hc hr => exact cached_iff.mpr fun d => (h.covered d).endChannelDifference hg hc hr
  | discarded hr1 hi1 hi hr2 hi2 =>
    refine cached_iff.mpr fun d => ?_
    have h1 := ((h.covered d).tryEndGetDiff hg.toInv ht hr1).1.popEntry hi1.sorted .common
    have ht1 := (ht.tryEndGetDiff hg.toInv hr1).popEntry hi1.sorted .common
    exact (h1.tryEndGetDiff hi ht1 hr2).1.popEntry hi2.sorted .secondary

theorem load_cached (saved : UpdatesState) (now : Instant) : (load saved now).Cached := by
  intro k e he
  obtain ⟨pts, rfl⟩ := load_entry he
  exact .of_ready rfl

/-! The scan that a cached deadline leaves out. -/

theorem scanEntry_idle (h : e.isDue now = false) : scanEntry now s e = (s, e) := by
  simp only [LiveEntry.isDue, Bool.or_eq_false_iff] at h
  unfold scanEntry
  have h1 : ¬(e.recoveryDeferred = true ∧ e.deadline ≤ now) := by simpa using h.1
  have h2 : ¬(e.effectiveDeadline ≤ now ∧ ¬e.recoveryPending = true) := by
    rintro ⟨hle, hp⟩
    simp [hle, hp] at h
  simp only [if_neg h1, if_neg h2]

theorem scanEntries_idle {es : List LiveEntry} (h : ∀ e ∈ es, e.isDue now = false) :
    scanEntries now s es = (s, es) := by
  induction es with
  | nil => rfl
  | cons e es ih =>
    simp only [scanEntries, scanEntry_idle (h e (by simp)), ih fun e' he' => h e' (by simp [he'])]

/-- Nothing is due before the cached deadline. -/
theorem Cached.not_due (h : s.Cached) (hi : s.Inv) (ht : s.Timed now) (hlt : now < s.nextDeadline)
    (he : s.entry k = some e) : e.isDue now = false := by
  by_contra hdue
  simp only [Bool.not_eq_false, LiveEntry.isDue, Bool.or_eq_true, Bool.and_eq_true,
    Bool.not_eq_true', decide_eq_true_eq] at hdue
  rcases hdue with ⟨hd, hle⟩ | ⟨hp, hle⟩
  · have hgap := (ht k e he).gap ((hi.entryOk k e he).deferred hd)
    have := (h k e he).le_deadline (ht k e he) (by simp [LiveEntry.isWaiting, hd]) hgap
    exact absurd (this.trans hle) (not_le.mpr hlt)
  · have := h k e he (by simp [LiveEntry.isWaiting, hp])
    exact absurd (this.trans hle) (not_le.mpr hlt)

theorem Cached.scanDeadlines_idle (h : s.Cached) (hi : s.Inv) (ht : s.Timed now)
    (hlt : now < s.nextDeadline) :
    s.scanDeadlines now = { s with nextDeadline := (s.scanDeadlines now).nextDeadline } := by
  have hidle := scanEntries_idle (s := s) fun e he =>
    h.not_due hi ht hlt (entry_of_mem hi.sorted he)
  unfold scanDeadlines
  rw [hidle]

end MessageBoxes

theorem Initial.cached {config : Config} (h : Initial config) : config.boxes.Cached := by
  cases h with
  | new now =>
    intro k e he
    simp [MessageBoxes.entry_new] at he
  | load saved now => exact MessageBoxes.load_cached saved now

/-- The cached deadline is never late: it covers all entries whose recovery is not ready, and
leaving out the scan before it changes nothing. -/
structure NeverLate (s : MessageBoxes) (now : Instant) : Prop where
  cached : ∀ e ∈ s.entries, e.recoveryPending = false ∨ e.recoveryDeferred = true →
    s.nextDeadline ≤ e.effectiveDeadline
  scanned : ∀ later, now ≤ later → (s.checkDeadlines later).2 =
    { s.scanDeadlines later with nextDeadline := (s.checkDeadlines later).2.nextDeadline }

open MessageBoxes in
theorem MessageBoxes.Cached.neverLate {s : MessageBoxes} {now : Instant} (h : s.Cached)
    (hi : s.Inv) (ht : s.Timed now) : NeverLate s now where
  cached := fun e he hw => h _ e (entry_of_mem hi.sorted he) (by simpa [LiveEntry.isWaiting] using hw)
  scanned := by
    intro later hle
    unfold MessageBoxes.checkDeadlines
    simp only
    split
    next hlt => rw [h.scanDeadlines_idle hi (ht.mono hle) hlt]
    next => rfl

/-- A call that hands over only sound differences, and is punctual. -/
def PunctualStep (start : Config) (op : Op) (stop : Config) : Prop :=
  SoundStep start op stop ∧ op.Punctual start.boxes stop.now

theorem PunctualStep.cached {start stop : Config} {op : Op} (h : PunctualStep start op stop)
    (hg : start.boxes.Good) (ht : start.boxes.Timed start.now) (hc : start.boxes.Cached) :
    stop.boxes.Cached := by
  obtain ⟨⟨hstep, _⟩, hd⟩ := h
  exact hc.effect hg (ht.mono hstep.later) hd (Op.exec_effect hg hstep.allowed hstep.ran)

/-- As long as no call makes an entry known that is due before the cached deadline, or
retries a channel while something is overdue, the cached deadline is never late. -/
theorem deadline_never_late {start stop : Config} {ops : List Op} (hi : Initial start)
    (hp : Path PunctualStep start ops stop) : NeverLate stop.boxes stop.now := by
  obtain ⟨hg, ht, hc⟩ := hp.invariant (I := fun config => config.boxes.Good ∧
    config.boxes.Timed config.now ∧ config.boxes.Cached)
    (fun _ _ _ h hstep => ⟨hstep.1.1.good h.1, hstep.1.timed h.1 h.2.1, hstep.cached h.1 h.2.1 h.2.2⟩)
    ⟨hi.good, hi.timed, hi.cached⟩
  exact hc.neverLate hg.toInv ht

/-- A channel made known before the long timeout of another one keeps its deadline. -/
theorem deadline_never_late_known_first : ∃ start mid stop : Config,
    Initial start ∧ start.boxes = .load ⟨0, 0, 1, 1, [⟨7, 3⟩]⟩ 0 ∧
      PunctualStep start (.trySetChannelState 9 3) mid ∧
      PunctualStep mid (.tryApplyChannelDifference (.difference
        ⟨true, 3, some 10000, [], [], [], []⟩)) stop ∧
      stop.boxes.nextDeadline = nextUpdatesDeadline 0 ∧ NeverLate stop.boxes stop.now := by
  let start : Config := ⟨0, .load ⟨0, 0, 1, 1, [⟨7, 3⟩]⟩ 0⟩
  let learn : Op := .trySetChannelState 9 3
  let mid := (runOps start [(0, learn)]).getD start
  let answer : Op := .tryApplyChannelDifference (.difference ⟨true, 3, some 10000, [], [], [], []⟩)
  let stop := (runOps mid [(0, answer)]).getD mid
  have hi : Initial start := .load ⟨0, 0, 1, 1, [⟨7, 3⟩]⟩ 0
  have h1 : PunctualStep start learn mid :=
    ⟨⟨step_runOps (by decide), trivial⟩, fun _ => (by decide : start.boxes.nextDeadline ≤ _)⟩
  have h2 : PunctualStep mid answer stop := by
    refine ⟨⟨step_runOps (by decide), ?_⟩, trivial⟩
    intro c diff _ _ ha
    obtain rfl := Except.ok.inj ha
    rintro ⟨_, pts, hm⟩
    simp [retainValidUpdates] at hm
  refine ⟨start, mid, stop, hi, rfl, h1, h2, by decide, ?_⟩
  exact deadline_never_late hi (Path.cons h1 (Path.single h2))

/-- A channel made known after the long timeout of another one: its own deadline passes
without the scan noticing. -/
theorem deadline_late_for_new_channel : ∃ config : Config,
    runOps ⟨0, .load ⟨0, 0, 1, 1, [⟨7, 3⟩]⟩ 0⟩
      [(0, .tryApplyChannelDifference (.difference ⟨true, 3, some 10000, [], [], [], []⟩)),
        (0, .trySetChannelState 9 3)] = some config ∧
      Reached config ∧ ¬NeverLate config.boxes config.now ∧
      config.boxes.nextDeadline = fromSecs 10000 ∧
      (∃ e ∈ config.boxes.entries, e.key = .channel 9 ∧ e.recoveryPending = false ∧
        e.effectiveDeadline = fromSecs 900) ∧
      (config.boxes.checkDeadlines (fromSecs 900)).2.gettingDiffFor = [] ∧
      (config.boxes.scanDeadlines (fromSecs 900)).gettingDiffFor = [.channel 9] := by
  let start : Config := ⟨0, .load ⟨0, 0, 1, 1, [⟨7, 3⟩]⟩ 0⟩
  let ops : List (Instant × Op) :=
    [(0, .tryApplyChannelDifference (.difference ⟨true, 3, some 10000, [], [], [], []⟩)),
      (0, .trySetChannelState 9 3)]
  let config := (runOps start ops).getD start
  have hrun : runOps start ops = some config := runOps_getD (by decide)
  have hentry : ∃ e ∈ config.boxes.entries, e.key = .channel 9 ∧ e.recoveryPending = false ∧
      e.effectiveDeadline = fromSecs 900 := by decide
  have hnext : config.boxes.nextDeadline = fromSecs 10000 := by decide
  refine ⟨config, hrun, ⟨start, _, .load ⟨0, 0, 1, 1, [⟨7, 3⟩]⟩ 0, path_runOps hrun⟩, ?_, hnext,
    hentry, by decide, by decide⟩
  intro hlate
  obtain ⟨e, he, _, hp, hdue⟩ := hentry
  have hle := hlate.cached e he (Or.inl hp)
  rw [hnext, hdue] at hle
  exact absurd hle (by decide)

end Grammers
