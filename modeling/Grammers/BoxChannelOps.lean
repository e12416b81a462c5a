import Grammers.BoxDiffOps

namespace Grammers

open StableSort Reassembly WorkQueue

/-- The entry once its difference is put off. -/
def LiveEntry.postponed (e : LiveEntry) (d : Instant) : LiveEntry :=
  { e with
    deadline := d
    recoveryDeferred := true
    recoveryDeferrals := e.recoveryDeferrals + 1 }

/-- The entry once its channel may be retried at once. -/
def LiveEntry.hurried (e : LiveEntry) (now : Instant) : LiveEntry :=
  { e with
    recoveryFailures := e.recoveryFailures - 1
    retryNotBefore := none
    possibleGap := e.possibleGap.map fun gap => { gap with deadline := now } }

namespace MessageBoxes

variable {s s' : MessageBoxes} {e : LiveEntry} {k : Key} {c : Int} {now : Instant}
  {difference : ChannelDifference} {diff : ChannelDifferenceParts}

/-- A channel difference goes through three stages, none of which fails. -/
theorem applyChannelDifference_eq (h : s.Good) (hc : s.channelInDiff = some c)
    (he : s.entry (.channel c) = some e) (ha : adaptChannelDifference difference = .ok diff)
    (now : Instant) :
    ∃ b s1 s2 result, s.beginChannelDifference c diff now = .ok s1 ∧ b.now = now ∧
      b.force = [.channel c] ∧ b.newDate = s1.date ∧ b.newSeq = s1.seq ∧
      s1.processBatch b (retainValidUpdates diff.otherUpdates) = .ok (s2, result) ∧
      Batched b s1 (retainValidUpdates diff.otherUpdates) s2 result ∧
      s.applyChannelDifference difference now =
        .ok (s2.finishChannelDifference c diff e.recoveryFailures now,
          ⟨result ++ s2.channelMessages c diff, diff.users, diff.chats⟩) := by
  obtain ⟨e', he', hp, hd⟩ := h.toInv.channelInDiff hc
  obtain rfl := Option.some.inj (he.symm.trans he')
  obtain ⟨s1, hrun1, h1, _⟩ := beginChannelDifference_eq h he hp hd diff now
  have hadapt : adapt (.updates (.updates (retainValidUpdates diff.otherUpdates) diff.users
      diff.chats noDate noSeq)) = some (updates (retainValidUpdates diff.otherUpdates) diff.users
      diff.chats noDate noSeq) := rfl
  obtain ⟨s2, result, hrun2, hbatch, hb⟩ := processUpdatesInner_of_valid h1.toInv h1.account hadapt
    (by show (0 : Int32) ≤ noDate; decide) rfl rfl (fun u hu => (List.mem_filter.mp hu).2)
    [.channel c] now
  refine ⟨_, s1, s2, result, hrun1, rfl, rfl, ?_, ?_, hbatch, hb, ?_⟩
  · simp [batchOf, updates]
  · simp [batchOf, updates]
  · simp only [applyChannelDifference, hc, ha, hrun1, hrun2, he, bind, Except.bind]
    rfl

theorem Good.finishChannelDifference (h : s.Good) (he : s.entry (.channel c) = some e)
    (hpts : e.pts = diff.pts) (failures : Nat) (now : Instant) :
    (s.finishChannelDifference c diff failures now).Good := by
  obtain ⟨d, hd⟩ : ∃ d, d = timeoutDeadline diff.timeout now := ⟨_, rfl⟩
  have h1 := h.resetDeadline (.channel c) d
  have he1 : (s.resetDeadline (.channel c) d).entry (.channel c) =
      some { e with deadline := d } := by
    rw [entry_resetDeadline h.sorted, if_pos rfl, he]
    rfl
  unfold MessageBoxes.finishChannelDifference
  simp only [resetTimeout, ← hd]
  split
  next =>
    split
    next =>
      refine ⟨h1.toInv.retainContiguousHeldUpdates c diff.pts, ?_⟩
      rw [retainContiguousHeldUpdates_eq h1.toInv]
      exact h1.account
    next =>
      have := h1.retainAndRetry he1 (saturatingSucc failures)
        (now + channelRetryDelay (saturatingSucc failures))
      rw [show ({ e with deadline := d } : LiveEntry).pts = diff.pts from hpts] at this
      exact this
  next => exact ⟨h1.toInv.rotate _, by unfold rotate; split <;> exact h1.account⟩

/-- The entry of the channel a difference is for, when its updates have been processed. -/
theorem entry_after_difference (h : s.Good) (he : s.entry (.channel c) = some e)
    {b : Batch} {us : List Update} {result : List (Update × State)}
    (hb : Batched b s us s' result) (hf : b.force = [.channel c]) :
    ∃ e', s'.entry (.channel c) = some e' ∧ Steady e e' ∧
      (e'.recoveryPending = true → e.recoveryPending = true ∨
        ∃ pts, Update.channelTooLong c pts ∈ us) := by
  obtain ⟨p, hp, _, hs⟩ := hb
  obtain ⟨e', he', hsteady, hpend⟩ := Processed.path_forced_entry hp h.toInv h.account
    (k := .channel c) (by simp [hf]) he
  refine ⟨e', ?_, hsteady, ?_⟩
  · rcases hs with rfl | rfl
    · exact he'
    · exact he'
  · intro hpe
    rcases hpend hpe with hpe | ⟨c', pts, hk, hm⟩
    · exact Or.inl hpe
    · obtain rfl := Key.channel.inj hk
      exact Or.inr ⟨pts, mem_sortUpdatesByKey.mp hm⟩

theorem Good.applyChannelDifference (h : s.Good) (hc : s.channelInDiff = some c)
    (ha : adaptChannelDifference difference = .ok diff) (now : Instant) :
    ∃ s' result, s.applyChannelDifference difference now = .ok (s', result) ∧ s'.Good := by
  obtain ⟨e, he, hp, hd⟩ := h.toInv.channelInDiff hc
  obtain ⟨b, s1, s2, result, hrun1, _, hforce, _, _, _, hb, hrun⟩ :=
    applyChannelDifference_eq h hc he ha now
  obtain ⟨s1', hrun1', h1, _, _, _, hentry, _⟩ := beginChannelDifference_eq h he hp hd diff now
  obtain rfl := Except.ok.inj (hrun1.symm.trans hrun1')
  have he1 : s1.entry (.channel c) = some (e.answered diff now) := by rw [hentry, if_pos rfl]
  obtain ⟨e2, he2, hsteady, _⟩ := entry_after_difference h1 he1 hb hforce
  obtain ⟨hi2, ha2⟩ := hb.inv h1.toInv h1.account
  exact ⟨_, _, hrun, Good.finishChannelDifference ⟨hi2, ha2⟩ he2 hsteady.pts _ now⟩

theorem tryApplyChannelDifference_cases (s : MessageBoxes) (difference : ChannelDifference)
    (now : Instant) :
    s.tryApplyChannelDifference difference now = .error (.gap s) ∨
      ∃ c, s.channelInDiff = some c ∧ difference.isValid c = true ∧
        s.tryApplyChannelDifference difference now = s.applyChannelDifference difference now := by
  unfold MessageBoxes.tryApplyChannelDifference
  split
  next => exact Or.inl rfl
  next c hc =>
    split
    next => exact Or.inl rfl
    next hv => exact Or.inr ⟨c, hc, by simpa using hv, rfl⟩

theorem adaptChannelDifference_ne_gap (difference : ChannelDifference) (s : MessageBoxes) :
    adaptChannelDifference difference ≠ .error (.gap s) := by
  intro h
  simp only [adaptChannelDifference] at h
  split at h <;> try split at h
  all_goals simp at h

/-- A checked channel difference can be adapted. -/
theorem adaptChannelDifference_of_valid (hv : difference.isValid c = true) :
    ∃ diff, adaptChannelDifference difference = .ok diff ∧ 0 ≤ diff.pts := by
  cases difference with
  | empty isFinal pts timeout => exact ⟨_, rfl, of_decide_eq_true hv⟩
  | difference parts => exact ⟨parts, rfl, of_decide_eq_true hv⟩
  | tooLong isFinal timeout dialog chats users =>
    cases dialog with
    | dialog peer pts =>
      cases pts with
      | none => simp [ChannelDifference.isValid] at hv
      | some pts =>
        simp only [ChannelDifference.isValid, Option.any_some, Bool.and_eq_true,
          decide_eq_true_eq] at hv
        exact ⟨_, rfl, hv.1⟩
    | folder => simp [ChannelDifference.isValid] at hv
    | community => simp [ChannelDifference.isValid] at hv

theorem Good.tryApplyChannelDifference (h : s.Good) (difference : ChannelDifference) (now : Instant) :
    s.tryApplyChannelDifference difference now = .error (.gap s) ∨
      ∃ s' result, s.tryApplyChannelDifference difference now = .ok (s', result) ∧ s'.Good := by
  rcases tryApplyChannelDifference_cases s difference now with hr | ⟨c, hc, hv, hr⟩
  · exact Or.inl hr
  · obtain ⟨diff, ha, _⟩ := adaptChannelDifference_of_valid hv
    rw [hr]
    exact Or.inr (h.applyChannelDifference hc ha now)

/-! Deferring, retrying and ending a channel recovery. -/

theorem deferUntil_eq (h : s.Inv) (he : s.entry k = some e) (d : Instant) :
    s.deferUntil k d = { s.setEntry (e.postponed d) with
      readyDiffCount := s.readyDiffCount - 1
      gettingDiffFor := s.gettingDiffFor.erase k
      nextDeadline := min s.nextDeadline d } := by
  have hk : e.key = k := h.entry_key he
  let e1 : LiveEntry := { e with
    recoveryDeferred := true
    recoveryDeferrals := e.recoveryDeferrals + 1 }
  let s1 : MessageBoxes := { s with
    readyDiffCount := s.readyDiffCount - 1
    gettingDiffFor := s.gettingDiffFor.erase k }
  have hs1 : s1.Sorted := h.sorted
  have hset1 : (s1.updateEntry k fun entry => { entry with
      recoveryDeferred := true
      recoveryDeferrals := entry.recoveryDeferrals + 1 }) = s1.setEntry e1 :=
    updateEntry_of_entry hs1 he rfl
  have he1 : (s1.setEntry e1).entry k = some e1 := by
    rw [entry_setEntry_of_key hs1 e1 hk, if_pos rfl]
  have hset2 : ((s1.setEntry e1).updateEntry k fun entry => { entry with deadline := d }) =
      s1.setEntry (e.postponed d) := by
    rw [updateEntry_of_entry (setEntry_sorted hs1 e1) he1 rfl]
    exact setEntry_setEntry hs1 e1 { e1 with deadline := d } rfl
  have hall := hset1 ▸ hset2
  exact congrArg (fun t : MessageBoxes => { t with nextDeadline := min s.nextDeadline d }) hall

theorem Good.deferUntil (h : s.Good) (he : s.entry (.channel c) = some e)
    (hp : e.recoveryPending = true) (hd : e.recoveryDeferred = false) (d : Instant) :
    (s.deferUntil (.channel c) d).Good := by
  have hk : e.key = .channel c := h.entry_key he
  have hok := h.entryOk _ e he
  have hready : s.ready (e.postponed d).key = true := by
    show s.ready e.key = true
    rw [hk, ready_of_entry he, LiveEntry.isReady, hp, hd]
    rfl
  have hok1 : (e.postponed d).Ok := by
    refine ⟨fun _ => hp, hok.storable, hok.bound, hok.nonempty, hok.ahead, ?_, hok.accountGap⟩
    show e.key.isChannel = false → _
    rw [hk]
    simp [Key.isChannel]
  have hi := h.toInv.setEntry_dequeue hok1 (by simp [LiveEntry.postponed, LiveEntry.isReady]) hready
  have hacc := h.account.setEntry (e := e.postponed d) h.sorted
    (show e.key = .secondary → _ by rw [hk]; simp)
  have hgood : Good { s.setEntry (e.postponed d) with
      gettingDiffFor := s.gettingDiffFor.erase e.key
      readyDiffCount := s.readyDiffCount - 1 } := ⟨hi, hacc⟩
  rw [deferUntil_eq h.toInv he]
  exact hgood.congr rfl (by rw [hk]) rfl rfl

theorem Good.deferChannelDifference (h : s.Good) (hc : s.channelInDiff = some c)
    (retryAfter : Duration) (now : Instant) :
    ∃ s', s.deferChannelDifference retryAfter now = .ok s' ∧ s'.Good := by
  obtain ⟨e, he, hp, hd⟩ := h.toInv.channelInDiff hc
  have hk : e.key = .channel c := h.entry_key he
  have hmem := channelInDiff_mem hc
  have hready : s.ready (.channel c) = true := (h.queue.mem_iff _).mp hmem
  unfold MessageBoxes.deferChannelDifference
  simp only [hc]
  split
  next =>
    have h0 : Good { s with exhaustedChannels := insert c s.exhaustedChannels } :=
      h.congr rfl rfl rfl rfl
    obtain ⟨s1, hrun, h1, _, hentry⟩ := h0.tryEndGetDiff (.channel c) now
    refine ⟨s1.popEntry (.channel c), by simp only [hrun, bind, Except.bind]; rfl, h1.popEntry ?_⟩
    have he1 : s1.entry (.channel c) = some (e.ended now) := by
      have hsame : entry { s with exhaustedChannels := insert c s.exhaustedChannels } (.channel c) =
          some e := he
      rw [hentry, if_pos rfl, hsame, Option.map_some, if_pos hp]
    rw [ready_of_entry he1]
    rfl
  next =>
    have hpos := h.queue.count_pos hready
    rw [if_neg (show ¬s.readyDiffCount = 0 by omega)]
    exact ⟨_, rfl, h.deferUntil he hp hd _⟩

theorem Good.tryExhaustChannelGrace (h : s.Good) (hc : s.channelInDiff = some c) :
    ∃ s' spent, s.tryExhaustChannelGrace = .ok (s', spent) ∧ s'.Good := by
  unfold MessageBoxes.tryExhaustChannelGrace
  simp only [hc]
  split
  next => exact ⟨_, _, rfl, h.congr rfl rfl rfl rfl⟩
  next => exact ⟨_, _, rfl, h⟩

theorem Good.channelDifferenceAccessible (h : s.Good) (hc : s.channelInDiff = some c) :
    ∃ s', s.channelDifferenceAccessible = .ok s' ∧ s'.Good := by
  obtain ⟨e, he, _⟩ := h.toInv.channelInDiff hc
  have hok := h.entryOk _ e he
  have h0 : Good { s with exhaustedChannels := s.exhaustedChannels.erase c } := h.congr rfl rfl rfl rfl
  have hset := updateEntry_of_entry (f := fun entry => { entry with recoveryDeferrals := 0 })
    h0.sorted (show entry { s with exhaustedChannels := _ } (.channel c) = some e from he) rfl
  unfold MessageBoxes.channelDifferenceAccessible
  simp only [hc]
  refine ⟨_, rfl, ?_⟩
  rw [hset]
  exact h0.setEntry_known he { e with recoveryDeferrals := 0 } rfl
    ⟨hok.deferred, hok.storable, hok.bound, hok.nonempty, hok.ahead, hok.account, hok.accountGap⟩ rfl

theorem retryChannelWithoutDelay_of_none (h : s.Inv) (he : s.entry (.channel c) = none)
    (now : Instant) : s.retryChannelWithoutDelay c now = s := by
  simp [retryChannelWithoutDelay, updateEntry_of_none h.sorted he, he]

theorem retryChannelWithoutDelay_eq (h : s.Inv) (he : s.entry (.channel c) = some e)
    (now : Instant) : s.retryChannelWithoutDelay c now = { s.setEntry (e.hurried now) with
      nextDeadline := if e.possibleGap.isSome then now else s.nextDeadline } := by
  have hset : (s.updateEntry (.channel c) fun entry => { entry with
      recoveryFailures := entry.recoveryFailures - 1
      retryNotBefore := none
      possibleGap := entry.possibleGap.map fun gap => { gap with deadline := now } }) =
      s.setEntry (e.hurried now) := updateEntry_of_entry h.sorted he rfl
  simp only [retryChannelWithoutDelay, hset, he, Option.any_some]
  split
  next => rfl
  next => rfl

theorem LiveEntry.Ok.hurried (he : e.Ok) (hk : e.key.isChannel = true) (now : Instant) :
    (e.hurried now).Ok := by
  have hkept : (e.hurried now).buffer.kept = e.buffer.kept := by
    cases hg : e.possibleGap <;> simp [LiveEntry.buffer, LiveEntry.hurried, hg]
  refine ⟨he.deferred, by rw [hkept]; exact he.storable, by rw [hkept]; exact he.bound, ?_,
    by rw [hkept]; exact he.ahead, fun hf => ?_, fun hf => ?_⟩
  · intro gap hg
    obtain ⟨gap', hg', rfl⟩ := Option.map_eq_some_iff.mp hg
    exact he.nonempty gap' hg'
  · exact absurd (hk.symm.trans hf) (by simp)
  · exact absurd (hk.symm.trans hf) (by simp)

theorem Good.retryChannelWithoutDelay (h : s.Good) (c : Int) (now : Instant) :
    (s.retryChannelWithoutDelay c now).Good := by
  cases he : s.entry (.channel c) with
  | none =>
    rw [retryChannelWithoutDelay_of_none h.toInv he]
    exact h
  | some e =>
    have hk : e.key = .channel c := h.entry_key he
    have hok := LiveEntry.Ok.hurried (h.entryOk _ e he) (by rw [hk]; rfl) now
    rw [retryChannelWithoutDelay_eq h.toInv he]
    exact Good.congr (h.setEntry_known he (e.hurried now) rfl hok rfl) rfl rfl rfl rfl

/-- The entry without its gap. -/
theorem Good.clearGap (h : s.Good) (he : s.entry k = some e) :
    (s.setEntry { e with possibleGap := none }).Good :=
  h.setEntry_known he { e with possibleGap := none } rfl
    (LiveEntry.Ok.of_no_gap rfl (h.entryOk k e he).deferred (h.entryOk k e he).account) rfl

/-- What ends the recovery of a channel before its difference is complete: the state in
which the recovery has ended, and what is done in it. -/
theorem endChannelDifference_eq (h : s.Good) (hc : s.channelInDiff = some c)
    (he : s.entry (.channel c) = some e) (reason : PrematureEndReason) (now : Instant) :
    ∃ s', s'.Good ∧ s'.heldUpdates = s.heldUpdates ∧ s'.heldReleaseReady = true ∧
      (∀ k, s'.entry k = if k = .channel c then
        some (LiveEntry.ended { e with possibleGap := none } now) else s.entry k) ∧
      Lowered s' s.nextDeadline (nextUpdatesDeadline now) ∧
      s.endChannelDifference reason now = .ok (match reason with
        | .temporaryServerIssues =>
          (s'.retainContiguousHeldUpdates c e.pts).1.scheduleChannelRetry (.channel c)
            (saturatingSucc e.recoveryFailures) (s'.retainContiguousHeldUpdates c e.pts).2 now
        | .banned => s'.popEntry (.channel c)) := by
  obtain ⟨e0, he0, hp, _⟩ := h.toInv.channelInDiff hc
  obtain rfl := Option.some.inj (he.symm.trans he0)
  have hk : e.key = .channel c := h.entry_key he
  let e1 : LiveEntry := { e with possibleGap := none }
  have hset : (s.updateEntry (.channel c) fun entry => { entry with possibleGap := none }) =
      s.setEntry e1 := updateEntry_of_entry h.sorted he rfl
  have h1 : (s.setEntry e1).Good := h.clearGap he
  have hentry1 : ∀ k, (s.setEntry e1).entry k = if k = .channel c then some e1 else s.entry k :=
    entry_setEntry_of_key h.sorted e1 hk
  have he1 : (s.setEntry e1).entry (.channel c) = some e1 := by rw [hentry1, if_pos rfl]
  obtain ⟨s2, hrun, hi2, ⟨_, _, _, hs2⟩, hlow⟩ := tryEndGetDiff_eq h1.toInv he1 hp now
  have hentry2 : ∀ k, s2.entry k = if k = .channel c then some (e1.ended now) else s.entry k := by
    intro k
    rw [hs2]
    refine (entry_setEntry_of_key h1.sorted (e1.ended now) hk k).trans ?_
    split
    next => rfl
    next hne => rw [hentry1, if_neg hne]
  have he2 : s2.entry (.channel c) = some (e1.ended now) := by rw [hentry2, if_pos rfl]
  refine ⟨s2, ⟨hi2, h.account.congr fun k => ?_⟩, by rw [hs2]; rfl, ?_, hentry2, hlow, ?_⟩
  · rw [hentry2]
    split
    next hkc => rw [hkc, he]; rfl
    next => rfl
  · rw [hs2]
    exact Bool.or_true _
  · unfold MessageBoxes.endChannelDifference
    cases reason with
    | temporaryServerIssues =>
      simp only [hc, hset, hrun, bind, Except.bind, he2, he]
      rfl
    | banned =>
      simp only [hc, hset, hrun, bind, Except.bind]
      rfl

theorem Good.endChannelDifference (h : s.Good) (hc : s.channelInDiff = some c)
    (reason : PrematureEndReason) (now : Instant) :
    ∃ s', s.endChannelDifference reason now = .ok s' ∧ s'.Good := by
  obtain ⟨e, he, _⟩ := h.toInv.channelInDiff hc
  obtain ⟨s1, h1, _, _, hentry, _, hrun⟩ := endChannelDifference_eq h hc he reason now
  have he1 : s1.entry (.channel c) = some (LiveEntry.ended { e with possibleGap := none } now) := by
    rw [hentry, if_pos rfl]
  refine ⟨_, hrun, ?_⟩
  cases reason with
  | temporaryServerIssues => exact h1.retainAndRetry he1 _ _
  | banned =>
    refine h1.popEntry ?_
    rw [ready_of_entry he1]
    rfl

/-- Discarding the account ends its recoveries before it drops what they are for. -/
theorem discardAccountState_eq (h : s.Good) (now : Instant) :
    ∃ s1 s2, s.tryEndGetDiff .common now = .ok s1 ∧ s1.Inv ∧ (s1.popEntry .common).Inv ∧
      (s1.popEntry .common).tryEndGetDiff .secondary now = .ok s2 ∧ s2.Inv ∧
      s.discardAccountState now = .ok (s2.popEntry .secondary) ∧ (s2.popEntry .secondary).Good := by
  have hended : ∀ {s1 s2 : MessageBoxes} {k : Key}, (∀ k', s2.entry k' = if k' = k then
      (s1.entry k).map fun e => if e.recoveryPending then e.ended now else e else s1.entry k') →
      s2.ready k = false := by
    intro s1 s2 k hentry
    rw [ready, hentry, if_pos rfl]
    cases s1.entry k with
    | none => rfl
    | some e =>
      simp only [Option.map_some, Option.any_some]
      split
      next => rfl
      next hp => simp [LiveEntry.isReady, hp]
  obtain ⟨s1, hrun1, h1, _, hentry1⟩ := h.tryEndGetDiff .common now
  have hp1 := h1.toInv.popEntry (hended hentry1)
  obtain ⟨s2, hrun2, hi2, _, hentry2⟩ := hp1.tryEndGetDiff .secondary now
  have hp2 := hi2.popEntry (hended hentry2)
  refine ⟨s1, s2, hrun1, h1.toInv, hp1, hrun2, hi2, ?_, hp2, ?_⟩
  · simp only [MessageBoxes.discardAccountState, hrun1, hrun2, bind, Except.bind]
    rfl
  · intro hsec
    rw [entry_popEntry hi2.sorted, if_pos rfl] at hsec
    simp at hsec

/-- Without an account nothing of it is left, and no recovery of it is pending. -/
theorem Good.discardAccountState (h : s.Good) (now : Instant) :
    ∃ s', s.discardAccountState now = .ok s' ∧ s'.Good := by
  obtain ⟨s1, s2, _, _, _, _, _, hrun, hgood⟩ := discardAccountState_eq h now
  exact ⟨_, hrun, hgood⟩

end MessageBoxes

end Grammers
