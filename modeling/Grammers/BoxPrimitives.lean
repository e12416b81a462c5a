import Grammers.BoxInvariant

namespace Grammers

open StableSort Reassembly WorkQueue

/-- The retry time that still lies ahead. -/
def LiveEntry.backoff (e : LiveEntry) (now : Instant) : Option Instant :=
  e.retryNotBefore.filter (now < ·)

/-- The entry once its recovery has begun. -/
def LiveEntry.begun (e : LiveEntry) (now : Instant) : LiveEntry :=
  { e with
    possibleGap := none
    recoveryPending := true
    recoveryDeferred := (e.backoff now).isSome
    recoveryDeferrals := 0
    deadline := (e.backoff now).getD e.deadline }

/-- The entry once its recovery has ended. -/
def LiveEntry.ended (e : LiveEntry) (now : Instant) : LiveEntry :=
  { e with
    recoveryPending := false
    recoveryDeferred := false
    recoveryDeferrals := 0
    deadline := nextUpdatesDeadline now }

theorem LiveEntry.Ok.begun {e : LiveEntry} (he : e.Ok) (now : Instant) : (e.begun now).Ok := by
  refine LiveEntry.Ok.of_no_gap rfl (fun _ => rfl) ?_
  intro hk
  have hn := (he.account hk).1
  exact ⟨hn, by simp [LiveEntry.begun, LiveEntry.backoff, hn]⟩

theorem LiveEntry.Ok.ended {e : LiveEntry} (he : e.Ok) (now : Instant) : (e.ended now).Ok where
  deferred := by simp [LiveEntry.ended]
  storable := he.storable
  bound := he.bound
  nonempty := he.nonempty
  ahead := he.ahead
  account := fun hk => ⟨(he.account hk).1, rfl⟩
  accountGap := by simp [LiveEntry.ended]

namespace MessageBoxes

variable {s s' : MessageBoxes} {e e' : LiveEntry} {k k' : Key} {now d : Instant}

theorem tryBeginGetDiff_of_none (h : s.entry k = none) : s.tryBeginGetDiff k now = s := by
  simp [tryBeginGetDiff, isGettingDiff, h]

theorem tryBeginGetDiff_of_pending (h : s.isGettingDiff k = true) :
    s.tryBeginGetDiff k now = s := by
  simp [tryBeginGetDiff, h]

theorem tryBeginGetDiff_eq (h : s.Inv) (he : s.entry k = some e) (hp : e.recoveryPending = false)
    (now : Instant) :
    ∃ overflowed, s.tryBeginGetDiff k now = { s.setEntry (e.begun now) with
      heldUpdates := latest maxHeldUpdates (s.heldUpdates ++ gapHeld k e.possibleGap)
      heldOverflowed := overflowed
      gettingDiffFor := if (e.backoff now).isSome then s.gettingDiffFor else s.gettingDiffFor ++ [k]
      readyDiffCount := if (e.backoff now).isSome then s.readyDiffCount else s.readyDiffCount + 1
      nextDeadline := (e.backoff now).elim s.nextDeadline (min s.nextDeadline) } := by
  have hset : (s.updateEntry k fun entry => { entry with
      possibleGap := none
      recoveryPending := true
      recoveryDeferred := (e.backoff now).isSome
      recoveryDeferrals := 0
      deadline := (e.backoff now).getD entry.deadline }) = s.setEntry (e.begun now) :=
    updateEntry_of_entry h.sorted he rfl
  obtain ⟨o, ho⟩ := holdGap_eq (s := s.setEntry (e.begun now)) h.heldBound k e.possibleGap
  refine ⟨o, ?_⟩
  unfold tryBeginGetDiff
  rw [isGettingDiff_of_entry he, hp, he]
  simp only [Bool.false_eq_true, ↓reduceIte]
  rw [show e.retryNotBefore.filter (now < ·) = e.backoff now from rfl, hset, ho]
  cases e.backoff now with
  | none => rfl
  | some notBefore => rfl

/-- Beginning a recovery changes at most the entry it is for. -/
theorem entry_tryBeginGetDiff (h : s.Inv) (k : Key) (now : Instant) (k' : Key) :
    (s.tryBeginGetDiff k now).entry k' = if k' = k then
      (s.entry k).map fun e => if e.recoveryPending then e else e.begun now else s.entry k' := by
  cases he : s.entry k with
  | none =>
    rw [tryBeginGetDiff_of_none he]
    split
    next hk => rw [hk, he, Option.map_none]
    next => rfl
  | some e =>
    by_cases hp : e.recoveryPending = true
    · rw [tryBeginGetDiff_of_pending (by rw [isGettingDiff_of_entry he, hp])]
      split
      next hk => rw [hk, he, Option.map_some, if_pos hp]
      next => rfl
    · have hk : e.key = k := h.entry_key he
      obtain ⟨o, ho⟩ := tryBeginGetDiff_eq h he (by simpa using hp) now
      rw [ho, Option.map_some, if_neg hp]
      exact entry_setEntry_of_key h.sorted (e.begun now) hk k'

theorem Inv.tryBeginGetDiff (h : s.Inv) (k : Key) (now : Instant) :
    (s.tryBeginGetDiff k now).Inv := by
  cases he : s.entry k with
  | none =>
    rw [tryBeginGetDiff_of_none he]
    exact h
  | some e =>
    by_cases hp : e.recoveryPending = true
    · rw [tryBeginGetDiff_of_pending (by rw [isGettingDiff_of_entry he, hp])]
      exact h
    · have hp : e.recoveryPending = false := by simpa using hp
      obtain ⟨o, ho⟩ := tryBeginGetDiff_eq h he hp now
      have hok := h.entryOk k e he
      have hk : e.key = k := h.entry_key he
      have hnot : s.ready (e.begun now).key = false := by
        show s.ready e.key = false
        rw [hk, ready_of_entry he, LiveEntry.isReady, hp, Bool.false_and]
      have hheld : ∀ held ∈ gapHeld k e.possibleGap, Storable (.channel held.1) held.2 :=
        hk ▸ gapHeld_storable hok
      rw [ho]
      cases hb : e.backoff now with
      | none =>
        have hr : (e.begun now).isReady = true := by simp [LiveEntry.isReady, LiveEntry.begun, hb]
        have h1 := (h.setEntry_enqueue (hok.begun now) hr hnot).held hheld o
        have hq : s.gettingDiffFor ++ [k] = s.gettingDiffFor ++ [e.key] := by rw [hk]
        exact h1.congr rfl hq rfl rfl
      | some notBefore =>
        have hr : (e.begun now).isReady = s.ready (e.begun now).key := by
          rw [hnot]
          simp [LiveEntry.isReady, LiveEntry.begun, hb]
        exact ((h.setEntry (hok.begun now) hr).held hheld o).congr rfl rfl rfl rfl

/-- How the cached deadline moves when an entry's deadline is set: it is lowered to
that deadline, or computed anew over all entries. -/
def Lowered (s' : MessageBoxes) (old d : Instant) : Prop :=
  s'.nextDeadline = min old d ∨
    s'.nextDeadline ≤ d ∧ ∀ k e, s'.entry k = some e → s'.nextDeadline ≤ e.effectiveDeadline

theorem foldl_min_le (es : List LiveEntry) (d : Instant) :
    es.foldl (fun d e => min d e.effectiveDeadline) d ≤ d ∧
      ∀ e ∈ es, es.foldl (fun d e => min d e.effectiveDeadline) d ≤ e.effectiveDeadline := by
  induction es generalizing d with
  | nil => simp
  | cons e es ih =>
    obtain ⟨h1, h2⟩ := ih (min d e.effectiveDeadline)
    refine ⟨h1.trans (min_le_left _ _), ?_⟩
    intro e' he'
    rcases List.mem_cons.mp he' with rfl | he'
    · exact h1.trans (min_le_right _ _)
    · exact h2 e' he'

theorem resetDeadline_of_none (hs : s.Sorted) (he : s.entry k = none) (d : Instant) :
    ∃ next, s.resetDeadline k d = { s with nextDeadline := next } ∧
      Lowered { s with nextDeadline := next } s.nextDeadline d := by
  unfold resetDeadline
  rw [updateEntry_of_none hs he, he]
  simp only [Option.map_none, Option.getD_none, ↓reduceIte]
  obtain ⟨h1, h2⟩ := foldl_min_le s.entries d
  refine ⟨_, rfl, Or.inr ⟨h1, ?_⟩⟩
  intro k' e' he'
  exact h2 e' ((entry_eq_some_iff hs).mp he').1

theorem resetDeadline_eq (hs : s.Sorted) (he : s.entry k = some e) (d : Instant) :
    ∃ next, s.resetDeadline k d = { s.setEntry { e with deadline := d } with nextDeadline := next } ∧
      Lowered { s.setEntry { e with deadline := d } with nextDeadline := next } s.nextDeadline d := by
  have hset : (s.updateEntry k fun entry => { entry with deadline := d }) =
      s.setEntry { e with deadline := d } := updateEntry_of_entry hs he rfl
  unfold resetDeadline
  rw [hset]
  simp only
  split
  next =>
    obtain ⟨h1, h2⟩ := foldl_min_le (s.setEntry { e with deadline := d }).entries d
    refine ⟨_, rfl, Or.inr ⟨h1, ?_⟩⟩
    intro k' e' he'
    exact h2 e' ((entry_eq_some_iff (setEntry_sorted hs _)).mp he').1
  next => exact ⟨_, rfl, Or.inl rfl⟩

theorem entry_resetDeadline (hs : s.Sorted) (k : Key) (d : Instant) (k' : Key) :
    (s.resetDeadline k d).entry k' = if k' = k then
      (s.entry k).map fun e => { e with deadline := d } else s.entry k' := by
  cases he : s.entry k with
  | none =>
    obtain ⟨_, hr, _⟩ := resetDeadline_of_none hs he d
    rw [hr]
    split
    next hk =>
      rw [hk, Option.map_none]
      exact he
    next => rfl
  | some e =>
    obtain ⟨_, hr, _⟩ := resetDeadline_eq hs he d
    have hk : e.key = k := entry_key hs he
    rw [hr, Option.map_some]
    exact entry_setEntry_of_key hs { e with deadline := d } hk k'

theorem LiveEntry.Ok.deadline (he : e.Ok) (d : Instant) : LiveEntry.Ok { e with deadline := d } :=
  ⟨he.deferred, he.storable, he.bound, he.nonempty, he.ahead, he.account, he.accountGap⟩

theorem Inv.resetDeadline (h : s.Inv) (k : Key) (d : Instant) : (s.resetDeadline k d).Inv := by
  cases he : s.entry k with
  | none =>
    obtain ⟨_, hr, _⟩ := resetDeadline_of_none h.sorted he d
    rw [hr]
    exact h.congr rfl rfl rfl rfl
  | some e =>
    obtain ⟨_, hr, _⟩ := resetDeadline_eq h.sorted he d
    have hk := h.entry_key he
    rw [hr]
    have h1 : (s.setEntry { e with deadline := d }).Inv := by
      refine h.setEntry (LiveEntry.Ok.deadline (h.entryOk k e he) d) ?_
      show e.isReady = s.ready e.key
      rw [hk, ready_of_entry he]
    exact h1.congr rfl rfl rfl rfl

theorem tryEndGetDiff_of_not_pending (hp : s.isGettingDiff k = false) :
    s.tryEndGetDiff k now = .ok s := by
  unfold tryEndGetDiff
  cases he : s.entry k with
  | none => rfl
  | some e =>
    rw [isGettingDiff_of_entry he] at hp
    simp [Option.filter, hp]

/-- Ending a pending recovery never fails, and only changes that entry, the queue,
the cached deadline and the release flag. -/
theorem tryEndGetDiff_eq (h : s.Inv) (he : s.entry k = some e) (hp : e.recoveryPending = true)
    (now : Instant) :
    ∃ s', s.tryEndGetDiff k now = .ok s' ∧ s'.Inv ∧
      (∃ queue count next, s' = { s.setEntry (e.ended now) with
        gettingDiffFor := queue
        readyDiffCount := count
        nextDeadline := next
        heldReleaseReady := s.heldReleaseReady || k.isChannel }) ∧
      Lowered s' s.nextDeadline (nextUpdatesDeadline now) := by
  have hok := h.entryOk k e he
  have hk : e.key = k := h.entry_key he
  -- the queue the entry leaves, if its recovery was ready
  obtain ⟨queue, count, hqueue, hinv⟩ : ∃ queue count,
      (if e.recoveryDeferred = true then Except.ok s else s.dequeue k) =
        .ok { s with gettingDiffFor := queue, readyDiffCount := count } ∧
      Inv { s.setEntry (e.ended now) with gettingDiffFor := queue, readyDiffCount := count } := by
    have hended : (e.ended now).isReady = false := rfl
    by_cases hd : e.recoveryDeferred = true
    · refine ⟨s.gettingDiffFor, s.readyDiffCount, by rw [if_pos hd], ?_⟩
      refine h.setEntry (hok.ended now) ?_
      show false = s.ready e.key
      rw [hk, ready_of_entry he, LiveEntry.isReady, hd, hp]
      rfl
    · have hr : s.ready k = true := by
        rw [ready_of_entry he, LiveEntry.isReady, hp]
        simpa using hd
      refine ⟨_, _, by rw [if_neg hd, h.dequeue_eq hr], ?_⟩
      have := h.setEntry_dequeue (hok.ended now) hended (show s.ready e.key = true from hk ▸ hr)
      rw [show (e.ended now).key = k from hk] at this
      exact this
  let s1 : MessageBoxes := { s with gettingDiffFor := queue, readyDiffCount := count }
  let e1 : LiveEntry := { e with
    recoveryPending := false
    recoveryDeferred := false
    recoveryDeferrals := 0 }
  have hs1 : s1.Sorted := h.sorted
  have hset : (s1.updateEntry k fun entry => { entry with
      recoveryPending := false
      recoveryDeferred := false
      recoveryDeferrals := 0 }) = s1.setEntry e1 := updateEntry_of_entry hs1 he rfl
  have he1 : (s1.setEntry e1).entry k = some e1 := by
    rw [entry_setEntry hs1, if_pos hk.symm]
  obtain ⟨next, hreset, hlow⟩ := resetDeadline_eq (setEntry_sorted hs1 e1) he1 (nextUpdatesDeadline now)
  rw [setEntry_setEntry hs1 e1 { e1 with deadline := nextUpdatesDeadline now } rfl] at hreset hlow
  refine ⟨{ s.setEntry (e.ended now) with
    gettingDiffFor := queue
    readyDiffCount := count
    nextDeadline := next
    heldReleaseReady := s.heldReleaseReady || k.isChannel }, ?_, ?_, ⟨queue, count, next, rfl⟩, hlow⟩
  · unfold tryEndGetDiff
    rw [he]
    simp only [Option.filter, hp, ↓reduceIte]
    rw [hqueue]
    simp only [bind, Except.bind, pure, Except.pure]
    rw [hset, hreset]
    rfl
  · exact hinv.congr rfl rfl rfl rfl

/-- Ending a recovery never fails, and changes at most the entry it is for. -/
theorem Inv.tryEndGetDiff (h : s.Inv) (k : Key) (now : Instant) :
    ∃ s', s.tryEndGetDiff k now = .ok s' ∧ s'.Inv ∧ s'.heldUpdates = s.heldUpdates ∧
      ∀ k', s'.entry k' = if k' = k then
        (s.entry k).map fun e => if e.recoveryPending then e.ended now else e else s.entry k' := by
  cases hp : s.isGettingDiff k with
  | false =>
    refine ⟨s, tryEndGetDiff_of_not_pending hp, h, rfl, ?_⟩
    intro k'
    split
    next hk =>
      subst hk
      cases he : s.entry k' with
      | none => rfl
      | some e =>
        rw [isGettingDiff_of_entry he] at hp
        simp [hp]
    next => rfl
  | true =>
    obtain ⟨e, he, hpe⟩ := entry_of_isGettingDiff hp
    obtain ⟨s', h1, h2, ⟨_, _, _, rfl⟩, _⟩ := tryEndGetDiff_eq h he hpe now
    refine ⟨_, h1, h2, rfl, ?_⟩
    intro k'
    have hk : e.key = k := h.entry_key he
    rw [he, Option.map_some, if_pos hpe]
    exact entry_setEntry_of_key h.sorted (e.ended now) hk k'

end MessageBoxes

end Grammers
