import Grammers.BoxReach

namespace Grammers

open StableSort Reassembly LabelledPath

theorem possibleGapTimeout_le : possibleGapTimeout ≤ channelRetryDelayLimit := by decide

theorem channelRetryDelayLimit_le : channelRetryDelayLimit ≤ noUpdatesTimeout := by decide

theorem channelRetryDelay_le (failures : Nat) : channelRetryDelay failures ≤ channelRetryDelayLimit :=
  min_le_right _ _

theorem channelRetry_le (failures : Nat) (now : Instant) :
    now + channelRetryDelay failures ≤ nextUpdatesDeadline now :=
  Nat.add_le_add_left ((channelRetryDelay_le failures).trans channelRetryDelayLimit_le) now

/-- A deadline may be put off by a backoff, and brought forward by a gap. -/
theorem LiveEntry.le_effectiveDeadline_iff (e : LiveEntry) (d : Instant) :
    d ≤ e.effectiveDeadline ↔
      (d ≤ e.deadline ∧ ∀ gap, e.possibleGap = some gap → d ≤ gap.deadline) ∨
        ∃ notBefore, e.retryNotBefore = some notBefore ∧ d ≤ notBefore := by
  unfold LiveEntry.effectiveDeadline
  cases e.possibleGap <;> cases e.retryNotBefore <;> simp [and_comm]

theorem LiveEntry.le_effectiveDeadline_of_retry (e : LiveEntry) {notBefore : Instant}
    (hn : e.retryNotBefore = some notBefore) : notBefore ≤ e.effectiveDeadline :=
  (e.le_effectiveDeadline_iff _).mpr (Or.inr ⟨notBefore, hn, le_rfl⟩)

/-- What times and recoveries of an entry have to do with each other: a recovery
leaves no gap open, one that is ready does not have to wait, and what makes an entry
wait ends within the longest delay. -/
structure LiveEntry.Timed (e : LiveEntry) (now : Instant) : Prop where
  gap : e.recoveryPending = true → e.possibleGap = none
  ready : e.isReady = true → ∀ notBefore, e.retryNotBefore = some notBefore → notBefore ≤ now
  settled : e.isWaiting = true → e.possibleGap = none →
    ∀ notBefore, e.retryNotBefore = some notBefore → notBefore ≤ e.deadline
  notBefore : ∀ notBefore, e.retryNotBefore = some notBefore →
    notBefore ≤ now + channelRetryDelayLimit
  gapDeadline : ∀ gap, e.possibleGap = some gap → gap.deadline ≤ now + channelRetryDelayLimit

namespace LiveEntry.Timed

variable {e : LiveEntry} {now later d : Instant} {u : Update}

theorem mono (h : e.Timed now) (hle : now ≤ later) : e.Timed later where
  gap := h.gap
  ready := fun hr nb hn => (h.ready hr nb hn).trans hle
  settled := h.settled
  notBefore := fun nb hn => (h.notBefore nb hn).trans (Nat.add_le_add_right hle _)
  gapDeadline := fun gap hg => (h.gapDeadline gap hg).trans (Nat.add_le_add_right hle _)

/-- An entry with no gap that may be retried at any time. -/
theorem of_free (hg : e.possibleGap = none) (hn : e.retryNotBefore = none) : e.Timed now :=
  ⟨fun _ => hg, by simp [hn], by simp [hn], by simp [hn], by simp [hg]⟩

theorem begun (h : e.Timed now) : (e.begun now).Timed now := by
  refine ⟨fun _ => rfl, ?_, ?_, h.notBefore, by simp [LiveEntry.begun]⟩
  · intro hr nb hn
    have hb : e.backoff now = none := by
      simpa [LiveEntry.isReady, LiveEntry.begun] using hr
    have hn : e.retryNotBefore = some nb := hn
    simpa [LiveEntry.backoff, hn] using hb
  · intro hw _ nb hn
    have hsome : (e.backoff now).isSome = true := by
      simpa [LiveEntry.isWaiting, LiveEntry.begun] using hw
    have hn : e.retryNotBefore = some nb := hn
    have hb : e.backoff now = some nb := by
      unfold LiveEntry.backoff at hsome ⊢
      rw [hn] at hsome ⊢
      by_cases hlt : now < nb
      · simp [Option.filter, hlt]
      · simp [Option.filter, hlt] at hsome
    show nb ≤ (e.backoff now).getD e.deadline
    rw [hb]
    exact le_rfl

theorem ended (h : e.Timed now) : (e.ended now).Timed now := by
  refine ⟨by simp [LiveEntry.ended], by simp [LiveEntry.ended, LiveEntry.isReady], ?_, h.notBefore,
    h.gapDeadline⟩
  intro _ _ nb hn
  exact (h.notBefore nb hn).trans (Nat.add_le_add_left channelRetryDelayLimit_le now)

theorem roused (h : e.Timed now) (hok : e.Ok) : (e.roused now).Timed now := by
  unfold LiveEntry.roused
  split
  next hdue =>
    refine ⟨?_, ?_, by simp [LiveEntry.isWaiting], h.notBefore, ?_⟩
    · intro _
      simp only [ite_eq_right_iff]
      exact h.gap
    · intro _ nb hn
      simp only [LiveEntry.isDue, Bool.or_eq_true, Bool.and_eq_true, decide_eq_true_eq] at hdue
      rcases hdue with ⟨hd, hle⟩ | ⟨_, hle⟩
      · have hp := hok.deferred hd
        exact (h.settled (by simp [LiveEntry.isWaiting, hd]) (h.gap hp) nb hn).trans hle
      · exact (e.le_effectiveDeadline_of_retry hn).trans hle
    · intro gap hg
      simp only at hg
      split at hg
      next => exact h.gapDeadline gap hg
      next => simp at hg
  next => exact h

/-- A gap of a channel closes only when an update moves its position. -/
theorem gapAfter_of_gap (hok : e.Ok) (hk : e.key.isChannel = true) (hgap : e.possibleGap ≠ none)
    (hne : updateSortKey u ≠ e.pts.toInt) : e.gapAfter u now ≠ none := by
  obtain ⟨gap, hg⟩ := Option.ne_none_iff_exists'.mp hgap
  have hkept : e.buffer.kept = gap.updates := by simp [LiveEntry.buffer, hg]
  have hahead := hok.ahead hk
  have hnonempty : e.buffer.kept ≠ [] := hkept ▸ hok.nonempty gap hg
  have hrest : (e.accept u).1.kept ≠ [] := arrive_kept_ne_nil popOrder_perm hahead hnonempty hne
  simp [LiveEntry.gapAfter, hrest]

/-- A gap that stays keeps its deadline, and a new one is due soon. -/
theorem gapAfter_deadline (h : e.Timed now) {gap : PossibleGap} (hg : e.gapAfter u now = some gap) :
    gap.deadline ≤ now + channelRetryDelayLimit := by
  unfold LiveEntry.gapAfter at hg
  split at hg
  next => simp at hg
  next =>
    obtain rfl := Option.some.inj hg
    show e.gapDeadline now ≤ now + channelRetryDelayLimit
    unfold LiveEntry.gapDeadline
    cases he : e.possibleGap with
    | none => exact Nat.add_le_add_left possibleGapTimeout_le now
    | some gap => exact h.gapDeadline gap he

theorem after (h : e.Timed now) (hok : e.Ok) (hp : e.recoveryPending = false) {b : Batch}
    (hb : b.now = now) (pts : Int32) : (e.after b u pts).Timed now := by
  have hpend : (e.after b u pts).recoveryPending = false := hp
  refine ⟨by simp [hpend], by simp [LiveEntry.isReady, hpend], ?_, h.notBefore, ?_⟩
  · intro _ hg nb hn
    have hn : e.retryNotBefore = some nb := hn
    have hlimit := (h.notBefore nb hn).trans (Nat.add_le_add_left channelRetryDelayLimit_le now)
    show nb ≤ if updateSortKey u = e.pts.toInt then nextUpdatesDeadline b.now else e.deadline
    split
    next => exact hb ▸ hlimit
    next hne =>
      refine h.settled (by simp [LiveEntry.isWaiting, hp]) ?_ nb hn
      by_contra hgap
      have hk : e.key.isChannel = true := by
        by_contra hk
        have := (hok.account (by simpa using hk)).1
        simp [hn] at this
      exact gapAfter_of_gap hok hk hgap hne hg
  · intro gap hg
    have hg : e.gapAfter u b.now = some gap := hg
    exact h.gapAfter_deadline (hb ▸ hg)

/-- Moving the deadline of an entry that may be retried at any time. -/
theorem deadline (h : e.Timed now) (hn : e.retryNotBefore = none) (d : Instant) :
    LiveEntry.Timed { e with deadline := d } now :=
  ⟨h.gap, by simp [hn], by simp [hn], by simp [hn], h.gapDeadline⟩

theorem clearGap (h : e.Timed now) (hp : e.recoveryPending = true) :
    LiveEntry.Timed { e with possibleGap := none } now :=
  ⟨fun _ => rfl, h.ready, fun hw _ => h.settled hw (h.gap hp), h.notBefore, by simp⟩

theorem pts (h : e.Timed now) (pts : Int32) : LiveEntry.Timed { e with pts := pts } now :=
  ⟨h.gap, h.ready, h.settled, h.notBefore, h.gapDeadline⟩

theorem postponed (h : e.Timed now) (hr : e.isReady = true) (hd : now ≤ d) :
    (e.postponed d).Timed now := by
  refine ⟨h.gap, by simp [LiveEntry.isReady, LiveEntry.postponed], ?_, h.notBefore, h.gapDeadline⟩
  exact fun _ _ nb hn => (h.ready hr nb hn).trans hd

theorem hurried (h : e.Timed now) : (e.hurried now).Timed now := by
  refine ⟨?_, by simp [LiveEntry.hurried], by simp [LiveEntry.hurried], by simp [LiveEntry.hurried], ?_⟩
  · intro hp
    simp [LiveEntry.hurried, h.gap hp]
  · intro gap hg
    obtain ⟨gap', _, rfl⟩ := Option.map_eq_some_iff.mp hg
    exact Nat.le_add_right now _

theorem backedOff (h : e.Timed now) (hp : e.recoveryPending = false) {failures : Nat}
    {beyond : List Update} {retryAt : Instant} (hlimit : retryAt ≤ now + channelRetryDelayLimit)
    (hd : beyond = [] → retryAt ≤ e.deadline) : (e.backedOff failures beyond retryAt).Timed now := by
  have hpend : (e.backedOff failures beyond retryAt).recoveryPending = false := hp
  refine ⟨by simp [hpend], by simp [LiveEntry.isReady, hpend], ?_, ?_, ?_⟩
  · intro _ hg nb hn
    obtain rfl := Option.some.inj hn
    refine hd ?_
    by_contra hne
    simp [LiveEntry.backedOff, hne] at hg
  · intro nb hn
    obtain rfl := Option.some.inj hn
    exact hlimit
  · intro gap hg
    simp only [LiveEntry.backedOff] at hg
    split at hg
    next => exact h.gapDeadline gap hg
    next =>
      obtain rfl := Option.some.inj hg
      exact hlimit

end LiveEntry.Timed

namespace MessageBoxes

variable {s s' : MessageBoxes} {e : LiveEntry} {k : Key} {c : Int} {now later : Instant}

/-- All entries are in order with the clock. -/
def Timed (s : MessageBoxes) (now : Instant) : Prop := ∀ k e, s.entry k = some e → e.Timed now

theorem Timed.mono (h : s.Timed now) (hle : now ≤ later) : s.Timed later :=
  fun k e he => (h k e he).mono hle

theorem Timed.congr (h : s.Timed now) (he : s'.entries = s.entries) : s'.Timed now := by
  intro k e hk
  rw [entry, he] at hk
  exact h k e hk

theorem Timed.setEntry (h : s.Timed now) (hs : s.Sorted) (he : e.Timed now) :
    (s.setEntry e).Timed now := by
  intro k e' hk
  rw [entry_setEntry hs] at hk
  split at hk
  next => exact Option.some.inj hk ▸ he
  next => exact h k e' hk

theorem Timed.fresh (h : s.Timed now) (hs : s.Sorted) (k : Key) (pts : Int32) (d : Instant) :
    (s.setEntry (.fresh k pts d)).Timed now :=
  h.setEntry hs (.of_free rfl rfl)

theorem Timed.popEntry (h : s.Timed now) (hs : s.Sorted) (k : Key) : (s.popEntry k).Timed now := by
  intro k' e hk
  rw [entry_popEntry hs] at hk
  split at hk
  next => simp at hk
  next => exact h k' e hk

theorem Timed.setPts (h : s.Timed now) (hs : s.Sorted) (k : Key) (pts : Int32) :
    (s.setPts k pts later).Timed now := by
  rw [setPts_eq hs]
  cases he : s.entry k with
  | none => exact h.fresh hs k pts _
  | some e => exact h.setEntry hs ((h k e he).pts pts)

theorem Timed.tryBeginGetDiff (h : s.Timed now) (hi : s.Inv) (k : Key) :
    (s.tryBeginGetDiff k now).Timed now := by
  intro k' e' he'
  rw [entry_tryBeginGetDiff hi] at he'
  split at he'
  next =>
    obtain ⟨e, he, rfl⟩ := Option.map_eq_some_iff.mp he'
    split
    next => exact h k e he
    next => exact (h k e he).begun
  next => exact h k' e' he'

theorem Timed.tryEndGetDiff (h : s.Timed now) (hi : s.Inv)
    (hr : s.tryEndGetDiff k now = .ok s') : s'.Timed now := by
  obtain ⟨s1, hr1, _, _, hentry⟩ := hi.tryEndGetDiff k now
  obtain rfl := Except.ok.inj (hr.symm.trans hr1)
  intro k' e' he'
  rw [hentry] at he'
  split at he'
  next =>
    obtain ⟨e, he, rfl⟩ := Option.map_eq_some_iff.mp he'
    split
    next => exact (h k e he).ended
    next => exact h k e he
  next => exact h k' e' he'

theorem Timed.resetDeadline (h : s.Timed now) (hs : s.Sorted)
    (hn : ∀ e, s.entry k = some e → e.retryNotBefore = none) (d : Instant) :
    (s.resetDeadline k d).Timed now := by
  intro k' e' he'
  rw [entry_resetDeadline hs] at he'
  split at he'
  next =>
    obtain ⟨e, he, rfl⟩ := Option.map_eq_some_iff.mp he'
    exact (h k e he).deadline (hn e he) d
  next => exact h k' e' he'

theorem Timed.checkDeadlines (h : s.Timed now) (hi : s.Inv) : (s.checkDeadlines now).2.Timed now := by
  unfold MessageBoxes.checkDeadlines
  simp only
  split
  next => exact h
  next =>
    intro k e' he'
    rw [entry_scanDeadlines hi] at he'
    obtain ⟨e, he, rfl⟩ := Option.map_eq_some_iff.mp he'
    exact (h k e he).roused (hi.entryOk k e he)

theorem Timed.retryChannelAt (h : s.Timed now) (hs : s.Sorted) (he : s.entry k = some e)
    (hp : e.recoveryPending = false) {failures : Nat} {beyond : List Update} {retryAt : Instant}
    (hlimit : retryAt ≤ now + channelRetryDelayLimit) (hd : beyond = [] → retryAt ≤ e.deadline) :
    (s.retryChannelAt k failures beyond retryAt).Timed now := by
  rw [retryChannelAt_eq hs he]
  exact Timed.congr (h.setEntry hs ((h k e he).backedOff hp hlimit hd)) rfl

/-- The keys whose entries may be retried at any time. -/
def Free (s : MessageBoxes) (keys : List Key) : Prop :=
  ∀ k ∈ keys, ∀ e, s.entry k = some e → e.retryNotBefore = none

/-- Account entries are never backed off. -/
theorem Inv.free_account (h : s.Inv) : s.Free [.common, .secondary] := by
  intro k hk e he
  have hkey := h.entry_key he
  refine ((h.entryOk k e he).account ?_).1
  rw [hkey]
  rcases List.mem_cons.mp hk with rfl | hk
  · rfl
  · obtain rfl := List.mem_singleton.mp hk
    rfl

end MessageBoxes

variable {b : Batch} {p p' : Processing} {u : Update} {us : List Update} {s s' : MessageBoxes}
  {result : List (Update × State)} {now : Instant}

theorem Stepped.timed {k : Key} {e' : LiveEntry} (hs : Stepped b p k e') (h : p.boxes.Inv)
    (ht : p.boxes.Timed now) (hfree : p.boxes.Free b.force) (hnow : b.now = now) :
    e'.Timed now := by
  cases hs with
  | same he => exact ht k _ he
  | begun he => exact hnow ▸ (hnow ▸ ht k _ he : LiveEntry.Timed _ b.now).begun
  | admitted =>
    refine hnow ▸ (LiveEntry.Timed.begun ?_)
    exact .of_free rfl rfl
  | forced hk he => exact (ht k _ he).deadline (hfree k hk _ he) _
  | @applied u info pts hk hu hf hp hpts =>
    obtain ⟨hok, _⟩ := target_ok h b info
    have htarget : (p.target b info).Timed now ∧ (p.target b info).recoveryPending = false := by
      unfold Processing.target
      cases he : p.boxes.entry info.key with
      | none => exact ⟨.of_free rfl rfl, rfl⟩
      | some e => exact ⟨ht _ e he, by rwa [MessageBoxes.isGettingDiff_of_entry he] at hp⟩
    exact htarget.1.after hok htarget.2 hnow pts

theorem Stepped.free {k : Key} {e' : LiveEntry} (hs : Stepped b p k e')
    (hn : ∀ e, p.boxes.entry k = some e → e.retryNotBefore = none) : e'.retryNotBefore = none := by
  cases hs with
  | same he => exact hn _ he
  | @begun e he => exact hn e he
  | admitted => rfl
  | @forced e _ he => exact hn e he
  | @applied u info pts hk =>
    subst hk
    show (p.target b info).retryNotBefore = none
    unfold Processing.target
    cases he : p.boxes.entry info.key with
    | none => rfl
    | some e => exact hn e he

theorem Processed.timed (hp : Processed b p u p') (h : p.boxes.Inv) (ht : p.boxes.Timed now)
    (hfree : p.boxes.Free b.force) (hnow : b.now = now) :
    p'.boxes.Timed now ∧ p'.boxes.Free b.force :=
  ⟨fun _ _ he => (hp.stepped h he).timed h ht hfree hnow,
    fun k hk _ he => (hp.stepped h he).free (hfree k hk)⟩

theorem Processed.path_timed (hp : Path (Processed b) p us p') (h : p.boxes.Inv)
    (ha : p.boxes.Account) (ht : p.boxes.Timed now) (hfree : p.boxes.Free b.force)
    (hnow : b.now = now) : p'.boxes.Timed now ∧ p'.boxes.Free b.force := by
  refine (hp.invariant (I := fun q => (q.boxes.Timed now ∧ q.boxes.Free b.force) ∧
    q.boxes.Inv ∧ q.boxes.Account) ?_ ⟨⟨ht, hfree⟩, h, ha⟩).1
  rintro q u q' ⟨⟨hqt, hqf⟩, hqi, hqa⟩ hstep
  exact ⟨hstep.timed hqi hqt hqf hnow, hstep.inv hqi hqa⟩

theorem Batched.timed (hb : Batched b s us s' result) (h : s.Inv) (ha : s.Account)
    (ht : s.Timed now) (hfree : s.Free b.force) (hnow : b.now = now) :
    s'.Timed now ∧ s'.Free b.force := by
  obtain ⟨p, hp, _, hs⟩ := hb
  have := Processed.path_timed hp h ha ht hfree hnow
  rcases hs with rfl | rfl
  · exact this
  · exact this

end Grammers
