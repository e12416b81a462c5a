import Grammers.BoxTimed

namespace Grammers

open StableSort Reassembly LabelledPath

/-- Not due before an instant, unless a recovery is ready. -/
def LiveEntry.Waits (e : LiveEntry) (d : Instant) : Prop :=
  e.isWaiting = true → d ≤ e.effectiveDeadline

/-- The cached deadline an arrival asks for is no later than a new deadline. -/
theorem LiveEntry.Timed.arrival_le {e : LiveEntry} {now : Instant} {u : Update} (ht : e.Timed now)
    {b : Batch} (hb : b.now = now) : ((e.gapAfter u b.now).map PossibleGap.deadline).getD
      (nextUpdatesDeadline b.now) ≤ nextUpdatesDeadline b.now := by
  cases hg : e.gapAfter u b.now with
  | none => exact le_rfl
  | some gap =>
    have := ht.gapAfter_deadline (hb ▸ hg)
    exact hb ▸ this.trans (Nat.add_le_add_left channelRetryDelayLimit_le now)

namespace LiveEntry.Waits

variable {e : LiveEntry} {d t now : Instant} {u : Update}

theorem mono (h : e.Waits d) (hle : t ≤ d) : e.Waits t := fun hw => hle.trans (h hw)

theorem of_ready (hr : e.isReady = true) : e.Waits d := by
  intro hw
  simp only [LiveEntry.isReady, LiveEntry.isWaiting, Bool.and_eq_true, Bool.or_eq_true,
    Bool.not_eq_true'] at hr hw
  rcases hw with hw | hw
  · simp [hr.1] at hw
  · simp [hr.2] at hw

/-- Without a gap, an entry waits until its own deadline. -/
theorem of_deadline (hg : e.possibleGap = none) (hd : d ≤ e.deadline) : e.Waits d :=
  fun _ => (e.le_effectiveDeadline_iff d).mpr (Or.inl ⟨hd, by simp [hg]⟩)

theorem fresh (k : Key) (pts : Int32) (t : Instant) : (LiveEntry.fresh k pts t).Waits t :=
  of_deadline rfl le_rfl

theorem deadline (h : e.Waits d) (t : Instant) : LiveEntry.Waits { e with deadline := t } (min d t) := by
  intro hw
  refine (LiveEntry.le_effectiveDeadline_iff _ _).mpr ?_
  rcases (e.le_effectiveDeadline_iff d).mp (h hw) with ⟨_, hgap⟩ | ⟨notBefore, hn, hd⟩
  · exact Or.inl ⟨min_le_right _ _, fun gap hg => (min_le_left _ _).trans (hgap gap hg)⟩
  · exact Or.inr ⟨notBefore, hn, (min_le_left _ _).trans hd⟩

/-- An entry whose recovery begins waits for the end of its backoff, if at all. -/
theorem begun (e : LiveEntry) (now : Instant) (hd : ∀ notBefore, e.backoff now = some notBefore →
    d ≤ notBefore) : (e.begun now).Waits d := by
  cases hb : e.backoff now with
  | none => exact of_ready (by simp [LiveEntry.isReady, LiveEntry.begun, hb])
  | some notBefore =>
    refine of_deadline rfl ?_
    simpa [LiveEntry.begun, hb] using hd notBefore hb

theorem ended (hg : e.possibleGap = none) (now : Instant) :
    (e.ended now).Waits (nextUpdatesDeadline now) := of_deadline hg le_rfl

/-- A final answer ends the recovery; any other one leaves it ready. -/
theorem answered (e : LiveEntry) (diff : ChannelDifferenceParts)
    (hd : diff.isFinal = true → d ≤ nextUpdatesDeadline now) : (e.answered diff now).Waits d := by
  cases hf : diff.isFinal with
  | true => exact of_deadline rfl (by simpa [LiveEntry.answered, hf] using hd hf)
  | false => exact of_ready (by simp [LiveEntry.isReady, LiveEntry.answered, hf])

theorem postponed (hg : e.possibleGap = none) (t : Instant) : (e.postponed t).Waits t :=
  of_deadline hg le_rfl

theorem backedOff (hg : e.possibleGap = none) {failures : Nat} {beyond : List Update} {t : Instant} :
    (e.backedOff failures beyond t).Waits (if beyond.isEmpty then e.deadline else t) := by
  split
  next hb => exact of_deadline (by simp [LiveEntry.backedOff, hb, hg]) le_rfl
  next => exact fun _ => LiveEntry.le_effectiveDeadline_of_retry _ rfl

/-- What made an entry without a gap wait has ended by its deadline. -/
theorem le_deadline (h : e.Waits d) (ht : e.Timed now) (hw : e.isWaiting = true)
    (hg : e.possibleGap = none) : d ≤ e.deadline := by
  rcases (e.le_effectiveDeadline_iff d).mp (h hw) with ⟨hd, _⟩ | ⟨notBefore, hn, hd⟩
  · exact hd
  · exact hd.trans (ht.settled hw hg notBefore hn)

theorem hurried (h : e.Waits d) (ht : e.Timed now) (hd : e.possibleGap.isSome = true →
    d ≤ now ∧ d ≤ e.deadline) : (e.hurried now).Waits d := by
  intro hw
  cases hg : e.possibleGap with
  | none =>
    have hnone : (e.hurried now).possibleGap = none := by simp [LiveEntry.hurried, hg]
    exact of_deadline hnone (h.le_deadline ht hw hg) hw
  | some gap =>
    obtain ⟨h1, h2⟩ := hd (by simp [hg])
    simp only [LiveEntry.effectiveDeadline, LiveEntry.hurried, hg, Option.map_some]
    exact le_min h1 h2

/-- What an arrival leaves of an entry waits as the entry did, or as its gap does. -/
theorem after (h : e.Waits d) (ht : e.Timed now) (hp : e.recoveryPending = false) {b : Batch}
    (hb : b.now = now) (pts : Int32) : (e.after b u pts).Waits
      (min d (((e.gapAfter u b.now).map PossibleGap.deadline).getD (nextUpdatesDeadline b.now))) := by
  intro _
  refine (LiveEntry.le_effectiveDeadline_iff _ _).mpr ?_
  have hd : d ≤ e.effectiveDeadline := h (by simp [LiveEntry.isWaiting, hp])
  have hgap : ∀ gap, e.gapAfter u b.now = some gap →
      min d (((e.gapAfter u b.now).map PossibleGap.deadline).getD (nextUpdatesDeadline b.now)) ≤
        gap.deadline := by
    intro gap hg
    rw [hg]
    exact min_le_right _ _
  rcases (e.le_effectiveDeadline_iff d).mp hd with ⟨hd, _⟩ | ⟨notBefore, hn, hd⟩
  · refine Or.inl ⟨?_, hgap⟩
    show _ ≤ if updateSortKey u = e.pts.toInt then nextUpdatesDeadline b.now else e.deadline
    split
    next => exact (min_le_right _ _).trans (ht.arrival_le hb)
    next => exact (min_le_left _ _).trans hd
  · exact Or.inr ⟨notBefore, hn, (min_le_left _ _).trans hd⟩

end LiveEntry.Waits

namespace MessageBoxes

variable {s s' : MessageBoxes} {e : LiveEntry} {k : Key} {d t now : Instant}

/-- The cached deadline is no later than that of any entry that waits. -/
def Cached (s : MessageBoxes) : Prop := ∀ k e, s.entry k = some e → e.Waits s.nextDeadline

/-- The cached deadline, or else an instant, is no later than that of any entry that waits. -/
def Covered (s : MessageBoxes) (d : Instant) : Prop :=
  ∀ k e, s.entry k = some e → e.Waits (min s.nextDeadline d)

theorem Cached.covered (h : s.Cached) (d : Instant) : s.Covered d :=
  fun k e he => (h k e he).mono (min_le_left _ _)

theorem Covered.cached (h : s.Covered d) (hd : s.nextDeadline ≤ d) : s.Cached :=
  fun k e he => (h k e he).mono (le_min le_rfl hd)

theorem cached_iff : s.Cached ↔ ∀ d, s.Covered d :=
  ⟨Cached.covered, fun h => (h s.nextDeadline).cached le_rfl⟩

theorem Covered.congr (h : s.Covered d) (he : s'.entries = s.entries)
    (hn : s'.nextDeadline = s.nextDeadline) : s'.Covered d := by
  intro k e hk
  rw [entry, he] at hk
  rw [hn]
  exact h k e hk

/-- An entry may be set while the cached deadline is lowered to cover it. -/
theorem Covered.setEntry (h : s.Covered d) (hs : s.Sorted) {next : Instant}
    (hn : next ≤ s.nextDeadline) (he : e.Waits (min next d)) :
    Covered { s.setEntry e with nextDeadline := next } d := by
  intro k e' hk
  have hk := (entry_setEntry hs e k).symm.trans hk
  split at hk
  next => exact Option.some.inj hk ▸ he
  next => exact (h k e' hk).mono (min_le_min_right d hn)

theorem Covered.popEntry (h : s.Covered d) (hs : s.Sorted) (k : Key) : (s.popEntry k).Covered d := by
  intro k' e hk
  rw [entry_popEntry hs] at hk
  split at hk
  next => simp at hk
  next => exact h k' e hk

theorem Lowered.covered {old : Instant} (hl : Lowered s old t)
    (h : ∀ k e, s.entry k = some e → e.Waits (min (min old t) d)) : s.Covered d := by
  intro k e he
  rcases hl with hn | ⟨_, hall⟩
  · rw [hn]
    exact h k e he
  · exact fun _ => (min_le_left _ _).trans (hall k e he)

theorem Lowered.le {old : Instant} (hl : Lowered s old t) : s.nextDeadline ≤ t := by
  rcases hl with hn | ⟨hn, _⟩
  · exact hn ▸ min_le_right _ _
  · exact hn

theorem Covered.resetDeadline (h : s.Covered d) (hs : s.Sorted) (k : Key) (t : Instant) :
    (s.resetDeadline k t).Covered d := by
  have hle : min (min s.nextDeadline t) d ≤ min s.nextDeadline d :=
    min_le_min_right d (min_le_left _ _)
  cases he : s.entry k with
  | none =>
    obtain ⟨next, hr, hl⟩ := resetDeadline_of_none hs he t
    rw [hr]
    exact hl.covered fun k' e' he' => (h k' e' he').mono hle
  | some e =>
    obtain ⟨next, hr, hl⟩ := resetDeadline_eq hs he t
    rw [hr]
    refine hl.covered fun k' e' he' => ?_
    have he' := (entry_setEntry hs { e with deadline := t } k').symm.trans he'
    split at he'
    next =>
      obtain rfl := Option.some.inj he'
      refine ((h k e he).deadline t).mono ?_
      exact le_min hle ((min_le_left _ _).trans (min_le_right _ _))
    next => exact (h k' e' he').mono hle

/-- Ending a recovery without a gap keeps the cached deadline, and lowers it to cover the
entry it was for. -/
theorem Covered.tryEndGetDiff (h : s.Covered d) (hi : s.Inv) (ht : s.Timed now)
    (hr : s.tryEndGetDiff k now = .ok s') : s'.Covered d ∧
      s'.nextDeadline ≤ max s.nextDeadline (nextUpdatesDeadline now) ∧
      (s.isGettingDiff k = true → s'.nextDeadline ≤ nextUpdatesDeadline now) := by
  cases hp : s.isGettingDiff k with
  | false =>
    rw [tryEndGetDiff_of_not_pending hp] at hr
    obtain rfl := Except.ok.inj hr
    exact ⟨h, le_max_left _ _, by simp⟩
  | true =>
    obtain ⟨e, he⟩ : ∃ e, s.entry k = some e := by
      cases he : s.entry k with
      | none => simp [isGettingDiff, he] at hp
      | some e => exact ⟨e, rfl⟩
    rw [isGettingDiff_of_entry he] at hp
    obtain ⟨s1, hr1, _, ⟨_, _, next, hs1⟩, hl⟩ := tryEndGetDiff_eq hi he hp now
    obtain rfl := Except.ok.inj (hr1.symm.trans hr)
    have hnext := hl.le
    refine ⟨hl.covered fun k' e' he' => ?_, hnext.trans (le_max_right _ _), fun _ => hnext⟩
    rw [hs1] at he'
    have he' := (entry_setEntry hi.sorted (e.ended now) k').symm.trans he'
    split at he'
    next =>
      obtain rfl := Option.some.inj he'
      refine (LiveEntry.Waits.ended ((ht k e he).gap hp) now).mono ?_
      exact (min_le_left _ _).trans (min_le_right _ _)
    next => exact (h k' e' he').mono (min_le_min_right d (min_le_left _ _))

/-- Beginning a recovery covers its entry, whatever the cached deadline was to it before. -/
theorem covered_tryBeginGetDiff (hi : s.Inv) (h : ∀ k' e, s.entry k' = some e →
    (k' = k → e.recoveryPending = true) → e.Waits (min s.nextDeadline d)) :
    (s.tryBeginGetDiff k now).Covered d := by
  cases he : s.entry k with
  | none =>
    rw [tryBeginGetDiff_of_none he]
    refine fun k' e' he' => h k' e' he' ?_
    rintro rfl
    simp [he] at he'
  | some e =>
    by_cases hp : e.recoveryPending = true
    · rw [tryBeginGetDiff_of_pending (by rw [isGettingDiff_of_entry he, hp])]
      refine fun k' e' he' => h k' e' he' ?_
      rintro rfl
      exact Option.some.inj (he.symm.trans he') ▸ hp
    · have hk : e.key = k := hi.entry_key he
      obtain ⟨o, ho⟩ := tryBeginGetDiff_eq hi he (by simpa using hp) now
      have hle : (e.backoff now).elim s.nextDeadline (min s.nextDeadline) ≤ s.nextDeadline := by
        cases e.backoff now with
        | none => exact le_rfl
        | some notBefore => exact min_le_left _ _
      rw [ho]
      intro k' e' he'
      have he' := (entry_setEntry_of_key hi.sorted (e.begun now) hk k').symm.trans he'
      split at he'
      next =>
        obtain rfl := Option.some.inj he'
        refine LiveEntry.Waits.begun e now fun notBefore hb => ?_
        rw [hb]
        exact (min_le_left _ _).trans (min_le_right _ _)
      next hne => exact (h k' e' he' (by simp [hne])).mono (min_le_min_right d hle)

theorem Covered.tryBeginGetDiff (h : s.Covered d) (hi : s.Inv) (k : Key) :
    (s.tryBeginGetDiff k now).Covered d :=
  covered_tryBeginGetDiff hi fun k' e he _ => h k' e he

theorem Covered.admitTooLong (h : s.Covered d) (hi : s.Inv) (k : Key) (pts : Option Int32) :
    ((s.admitTooLong k pts t).tryBeginGetDiff k now).Covered d := by
  rcases admitTooLong_cases s k pts t with hs | ⟨hn, p, _, _, hs⟩
  · rw [hs]
    exact h.tryBeginGetDiff hi k
  · rw [hs]
    refine covered_tryBeginGetDiff (hi.setEntry_fresh hn p t) fun k' e he hp => ?_
    rw [entry_setEntry hi.sorted] at he
    split at he
    next hk =>
      obtain rfl := Option.some.inj he
      simp [LiveEntry.fresh, hk] at hp
    next => exact h k' e he

end MessageBoxes

variable {b : Batch} {p p' : Processing} {u : Update} {us : List Update} {s s' : MessageBoxes}
  {result : List (Update × State)} {now d : Instant}

theorem Processed.covered (hp : Processed b p u p') (h : p.boxes.Inv) (ht : p.boxes.Timed now)
    (hc : p.boxes.Covered d) (hnow : b.now = now) : p'.boxes.Covered d := by
  cases hp with
  | tooLongPending => exact hc
  | tooLong => exact hc.admitTooLong h _ _
  | unordered => exact hc
  | forced => exact hc.resetDeadline h.sorted _ _
  | @postponed u info =>
    obtain ⟨_, _, hs⟩ := MessageBoxes.postpone_eq h info.key u
    simp only [hs]
    exact hc.congr rfl rfl
  | preLogin => exact hc
  | @applied u info pts hu hf hk hpend =>
    refine hc.setEntry h.sorted (min_le_left _ _) ?_
    unfold Processing.target
    cases he : p.boxes.entry info.key with
    | none =>
      have hfree : (LiveEntry.fresh info.key (info.pts - info.count)
          (nextUpdatesDeadline b.now)).Timed now := .of_free rfl rfl
      refine ((LiveEntry.Waits.fresh _ _ _).after hfree rfl hnow pts).mono ?_
      have hle := hfree.arrival_le (u := u) hnow
      exact (min_le_left _ _).trans (le_min ((min_le_right _ _).trans hle) (min_le_right _ _))
    | some e =>
      rw [MessageBoxes.isGettingDiff_of_entry he] at hpend
      refine ((hc _ e he).after (ht _ e he) hpend hnow pts).mono ?_
      exact le_min (min_le_min_right d (min_le_left _ _)) ((min_le_left _ _).trans (min_le_right _ _))

theorem Processed.path_covered (hp : Path (Processed b) p us p') (h : p.boxes.Inv)
    (ha : p.boxes.Account) (ht : p.boxes.Timed now) (hfree : p.boxes.Free b.force)
    (hc : p.boxes.Covered d) (hnow : b.now = now) : p'.boxes.Covered d := by
  refine (hp.invariant (I := fun q => q.boxes.Covered d ∧
    (q.boxes.Timed now ∧ q.boxes.Free b.force) ∧ q.boxes.Inv ∧ q.boxes.Account) ?_
    ⟨hc, ⟨ht, hfree⟩, h, ha⟩).1
  rintro q u q' ⟨hqc, ⟨hqt, hqf⟩, hqi, hqa⟩ hstep
  exact ⟨hstep.covered hqi hqt hqc hnow, hstep.timed hqi hqt hqf hnow, hstep.inv hqi hqa⟩

theorem Batched.covered (hb : Batched b s us s' result) (h : s.Inv) (ha : s.Account)
    (ht : s.Timed now) (hfree : s.Free b.force) (hc : s.Covered d) (hnow : b.now = now) :
    s'.Covered d := by
  obtain ⟨p, hp, _, hs⟩ := hb
  have := Processed.path_covered hp h ha ht hfree hc hnow
  rcases hs with rfl | rfl
  · exact this
  · exact this.congr rfl rfl

end Grammers
