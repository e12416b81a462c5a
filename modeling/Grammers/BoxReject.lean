import Grammers.BoxReach

namespace Grammers

open SortedSearch LabelledPath

namespace MessageBoxes

variable {s : MessageBoxes} {e e' : LiveEntry} {k : Key}

/-- A change that keeps the key and the position of an entry does not show in the session. -/
theorem sessionState_setEntry (hs : s.Sorted) (he : s.entry k = some e) (hk : e'.key = e.key)
    (hp : e'.pts = e.pts) : (s.setEntry e').sessionState = s.sessionState := by
  obtain ⟨hm, hkey⟩ := (entry_eq_some_iff hs).mp he
  have hpts : ∀ k', ((s.setEntry e').entry k').map LiveEntry.pts = (s.entry k').map LiveEntry.pts := by
    intro k'
    rw [entry_setEntry_of_key hs e' (hk.trans hkey)]
    split
    next h => rw [h, he, Option.map_some, Option.map_some, hp]
    next => rfl
  obtain ⟨left, right, hsplit⟩ := List.append_of_mem hm
  have hentries : (s.setEntry e').entries = left ++ e' :: right := by
    show upsert LiveEntry.key s.entries e' = _
    rw [Sorted, hsplit] at hs
    rw [hsplit]
    exact upsert_split hs hk.symm
  have hchannels : (s.setEntry e').sessionState.channels = s.sessionState.channels := by
    simp only [sessionState, hentries, hsplit, List.filterMap_append, List.filterMap_cons, hk, hp]
  have hcommon := hpts .common
  have hsecondary := hpts .secondary
  simp only [sessionState, UpdatesState.mk.injEq] at hchannels ⊢
  exact ⟨by rw [hcommon], by rw [hsecondary], rfl, rfl, hchannels⟩

/-- Beginning the account recovery, in full: nothing is held, and nothing is put off. -/
theorem tryBeginGetDiff_common (h : s.Inv) (he : s.entry .common = some e)
    (hp : e.recoveryPending = false) (now : Instant) :
    s.tryBeginGetDiff .common now = (s.setEntry (e.begun now)).enqueue .common := by
  have hk : e.key = .common := h.entry_key he
  have hn : e.retryNotBefore = none := ((h.entryOk _ e he).account (by rw [hk]; rfl)).1
  have hb : e.backoff now = none := by simp [LiveEntry.backoff, hn]
  have hset : (s.updateEntry .common fun entry => { entry with
      possibleGap := none
      recoveryPending := true
      recoveryDeferred := (e.backoff now).isSome
      recoveryDeferrals := 0
      deadline := (e.backoff now).getD entry.deadline }) = s.setEntry (e.begun now) :=
    updateEntry_of_entry h.sorted he rfl
  unfold tryBeginGetDiff
  rw [isGettingDiff_of_entry he, hp, he]
  simp only [Bool.false_eq_true, ↓reduceIte]
  rw [show e.retryNotBefore.filter (now < ·) = e.backoff now from rfl, hset, hb]
  rfl

end MessageBoxes

/-- What a refused batch may do: start the account recovery, and nothing else. -/
structure OnlyCommonBegan (s s' : MessageBoxes) : Prop where
  session : s'.sessionState = s.sessionState
  others : ∀ k, k ≠ .common → s'.entry k = s.entry k
  held : s'.heldUpdates = s.heldUpdates
  flags : s'.heldReleaseReady = s.heldReleaseReady ∧ s'.heldOverflowed = s.heldOverflowed ∧
    s'.exhaustedChannels = s.exhaustedChannels ∧ s'.nextDeadline = s.nextDeadline
  queue : s'.gettingDiffFor = s.gettingDiffFor ∨ s'.gettingDiffFor = s.gettingDiffFor ++ [.common]
  absent : s.entry .common = none → s' = s
  common : ∀ e, s.entry .common = some e → ∃ e', s'.entry .common = some e' ∧
    e'.possibleGap = none ∧ e'.recoveryPending = true ∧ e'.pts = e.pts ∧ e'.deadline = e.deadline ∧
    e'.recoveryFailures = e.recoveryFailures ∧ e'.retryNotBefore = e.retryNotBefore

open MessageBoxes in
theorem tryBeginGetDiff_only {s : MessageBoxes} (h : s.Inv) (now : Instant) :
    OnlyCommonBegan s (s.tryBeginGetDiff .common now) := by
  cases he : s.entry .common with
  | none =>
    rw [tryBeginGetDiff_of_none he]
    exact ⟨rfl, fun _ _ => rfl, rfl, ⟨rfl, rfl, rfl, rfl⟩, Or.inl rfl, fun _ => rfl,
      fun e hs => by rw [he] at hs; simp at hs⟩
  | some e =>
    have hk : e.key = .common := h.entry_key he
    have hok := h.entryOk _ e he
    have hn : e.retryNotBefore = none := (hok.account (by rw [hk]; rfl)).1
    cases hp : e.recoveryPending with
    | true =>
      rw [tryBeginGetDiff_of_pending (by rw [isGettingDiff_of_entry he, hp])]
      refine ⟨rfl, fun _ _ => rfl, rfl, ⟨rfl, rfl, rfl, rfl⟩, Or.inl rfl, fun _ => rfl, ?_⟩
      intro e0 hs
      obtain rfl := Option.some.inj (he.symm.trans hs)
      exact ⟨e, he, hok.accountGap (by rw [hk]; rfl) hp, hp, rfl, rfl, rfl, rfl⟩
    | false =>
      rw [tryBeginGetDiff_common h he hp]
      have hentry := entry_setEntry_of_key h.sorted (e.begun now) (k := .common) hk
      refine ⟨sessionState_setEntry h.sorted he rfl rfl, ?_, rfl, ⟨rfl, rfl, rfl, rfl⟩, Or.inr rfl, ?_,
        ?_⟩
      · exact fun k hne => (hentry k).trans (if_neg hne)
      · intro hnone
        rw [he] at hnone
        simp at hnone
      · intro e0 hs
        obtain rfl := Option.some.inj (he.symm.trans hs)
        refine ⟨e.begun now, (hentry .common).trans (if_pos rfl), rfl, rfl, rfl, ?_, rfl, rfl⟩
        simp [LiveEntry.begun, LiveEntry.backoff, hn]

/-- A batch is refused whole: positions, date, sequence, channels and held updates stay,
and only the account recovery begins. Past the checks before it, the loop over the
updates never returns early. -/
theorem rejected_batch_unapplied {s : MessageBoxes} (h : Reachable s) (updates : UpdatesLike)
    (now : Instant) :
    (∀ s', s.processUpdates updates now = .error (.gap s') → OnlyCommonBegan s s') ∧
      ∀ b us, (∀ u ∈ us, PtsInfo.validUpdate u = true) →
        ∃ s' result, s.processBatch b us = .ok (s', result) := by
  have hg := h.good
  constructor
  · intro s' hr
    rcases hg.processUpdatesInner updates [] now with ⟨s1, result, hok, _⟩ | herr
    · rw [MessageBoxes.processUpdates, hok] at hr
      simp at hr
    · rw [MessageBoxes.processUpdates, herr] at hr
      obtain rfl := Exit.gap.inj (Except.error.inj hr)
      exact tryBeginGetDiff_only hg.toInv now
  · intro b us hv
    obtain ⟨s', result, hr, _⟩ := processBatch_spec (b := b) hg.toInv hg.account hv
    exact ⟨s', result, hr⟩

/-- After login, an update that ends before it starts fails the batch it comes with. -/
theorem rejected_batch_unapplied_malformed :
    let s := (MessageBoxes.new 0).setState ⟨5, 0, 1, 1⟩ 0
    let batch : UpdatesLike := .updates
      (.updates [.readChannelInbox 7 1 4, .deleteChannelMessages 7 [] 1 5] [] [] 0 0)
    s.processUpdates batch 0 = .error (.gap (s.tryBeginGetDiff .common 0)) ∧
      OnlyCommonBegan s (s.tryBeginGetDiff .common 0) :=
  ⟨by decide, (rejected_batch_unapplied (reachable_setState ⟨5, 0, 1, 1⟩ 0) _ 0).1 _
    (by decide : MessageBoxes.processUpdates _ (.updates
      (.updates [.readChannelInbox 7 1 4, .deleteChannelMessages 7 [] 1 5] [] [] 0 0)) 0 = _)⟩

end Grammers
