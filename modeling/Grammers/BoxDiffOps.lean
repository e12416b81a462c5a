import Grammers.BoxOps

namespace Grammers

open StableSort Reassembly WorkQueue

/-- The entry without what its recovery has run into so far. -/
def LiveEntry.cleared (e : LiveEntry) : LiveEntry :=
  { e with
    possibleGap := none
    recoveryDeferred := false
    recoveryDeferrals := 0
    recoveryFailures := 0
    retryNotBefore := none }

/-- The entry once its channel has answered: a final difference ends the recovery. -/
def LiveEntry.answered (e : LiveEntry) (diff : ChannelDifferenceParts) (now : Instant) : LiveEntry :=
  { e with
    pts := diff.pts
    deadline := if diff.isFinal then nextUpdatesDeadline now else e.deadline
    recoveryDeferred := false
    recoveryPending := !diff.isFinal
    recoveryDeferrals := 0
    recoveryFailures := 0
    retryNotBefore := none
    possibleGap := none }

namespace MessageBoxes

variable {s s' : MessageBoxes} {e : LiveEntry} {k : Key} {c : Int} {now : Instant}

/-! The account difference. -/

theorem Good.beginDifference (h : s.Good) (state : ServerState) (now : Instant) :
    (s.beginDifference state now).Good := by
  have h0 : Good { s with date := state.date, seq := state.seq } := h.congr rfl rfl rfl rfl
  have h1 := h0.setPts (k := .common) (by simp) (by simp [Key.isChannel]) state.pts now
  refine h1.setPts (fun _ => ?_) (by simp [Key.isChannel]) state.qts now
  rw [entry_setPts h0.sorted]
  simp

theorem differenceUpdates_valid (s : MessageBoxes) (us : List Update) :
    ∀ u ∈ s.differenceUpdates us, PtsInfo.validUpdate u = true := by
  intro u hu
  exact (List.mem_filter.mp (List.mem_filter.mp hu).1).2

/-- The updates of an account difference are always processed. -/
theorem applyDifferenceType_eq (h : s.Good) (diff : DifferenceParts) (now : Instant) :
    ∃ b s' result, b.now = now ∧ b.force = [.common, .secondary] ∧
      b.newDate = diff.state.date ∧ b.newSeq = diff.state.seq ∧
      Batched b (s.beginDifference diff.state now)
        ((s.beginDifference diff.state now).differenceUpdates diff.otherUpdates) s' result ∧
      s.applyDifferenceType diff now =
        .ok (s', ⟨result ++ differenceMessages diff, diff.users, diff.chats⟩) := by
  have h1 := h.beginDifference diff.state now
  have hadapt : adapt (.updates (.updates ((s.beginDifference diff.state now).differenceUpdates
      diff.otherUpdates) diff.users diff.chats noDate noSeq)) = some (updates
      ((s.beginDifference diff.state now).differenceUpdates diff.otherUpdates) diff.users diff.chats
      noDate noSeq) := rfl
  obtain ⟨s', result, hrun, _, hb⟩ := processUpdatesInner_of_valid h1.toInv h1.account hadapt
    (by show (0 : Int32) ≤ noDate; decide) rfl rfl (differenceUpdates_valid _ _)
    [.common, .secondary] now
  have hstate : (s.beginDifference diff.state now).date = diff.state.date ∧
      (s.beginDifference diff.state now).seq = diff.state.seq := by
    simp only [MessageBoxes.beginDifference, MessageBoxes.setPts, MessageBoxes.updateEntry,
      MessageBoxes.setEntry]
    constructor <;> split <;> split <;> rfl
  refine ⟨_, s', result, rfl, rfl, ?_, ?_, hb, ?_⟩
  · simp [batchOf, updates, hstate]
  · simp [batchOf, updates, hstate]
  · simp only [MessageBoxes.applyDifferenceType, hrun]
    rfl

theorem Good.applyDifferenceType (h : s.Good) (diff : DifferenceParts) (now : Instant) :
    ∃ s' result, s.applyDifferenceType diff now = .ok (s', result) ∧ s'.Good := by
  have h1 := h.beginDifference diff.state now
  obtain ⟨b, s', result, _, _, _, _, hb, hrun⟩ := applyDifferenceType_eq h diff now
  obtain ⟨hi, ha⟩ := hb.inv h1.toInv h1.account
  exact ⟨s', _, hrun, hi, ha⟩

theorem Good.endAccount (h : s.Good) (now : Instant) :
    ∃ s', s.endAccount now = .ok s' ∧ s'.Good := by
  obtain ⟨s1, hrun1, h1, _⟩ := h.tryEndGetDiff .common now
  obtain ⟨s2, hrun2, h2, _⟩ := h1.tryEndGetDiff .secondary now
  exact ⟨s2, by simp [MessageBoxes.endAccount, hrun1, hrun2, bind, Except.bind], h2⟩

theorem Good.applyDifference (h : s.Good) (difference : Difference) (now : Instant) :
    ∃ s' result, s.applyDifference difference now = .ok (s', result) ∧ s'.Good := by
  cases difference with
  | empty date seq =>
    have h0 : Good { s with date := date, seq := seq } := h.congr rfl rfl rfl rfl
    obtain ⟨s', hrun, h'⟩ := h0.endAccount now
    exact ⟨s', _, by simp only [MessageBoxes.applyDifference, hrun, bind, Except.bind]; rfl, h'⟩
  | difference parts =>
    obtain ⟨s1, result, hrun1, h1⟩ := h.applyDifferenceType parts now
    obtain ⟨s', hrun, h'⟩ := h1.endAccount now
    exact ⟨s', _, by simp only [MessageBoxes.applyDifference, hrun1, hrun, bind, Except.bind]; rfl, h'⟩
  | slice parts => exact h.applyDifferenceType parts now
  | tooLong pts =>
    have h0 := h.setPts (k := .common) (by simp) (by simp [Key.isChannel]) pts now
    obtain ⟨s', hrun, h'⟩ := h0.endAccount now
    exact ⟨s', _, by simp only [MessageBoxes.applyDifference, hrun, bind, Except.bind]; rfl, h'⟩

theorem tryApplyDifference_cases (s : MessageBoxes) (difference : Difference) (now : Instant) :
    s.tryApplyDifference difference now = .error (.gap s) ∨
      difference.isValid = true ∧ (s.isGettingDiff .common = true ∨ s.isGettingDiff .secondary = true) ∧
        s.tryApplyDifference difference now = s.applyDifference difference now := by
  unfold MessageBoxes.tryApplyDifference
  split
  next => exact Or.inl rfl
  next hp =>
    split
    next => exact Or.inl rfl
    next hv =>
      refine Or.inr ⟨by simpa using hv, ?_, rfl⟩
      by_contra hno
      simp only [not_or] at hno
      exact hp hno

/-! Channel differences. -/

theorem channelInDiff_mem (hc : s.channelInDiff = some c) : Key.channel c ∈ s.gettingDiffFor := by
  obtain ⟨k, hk, hm⟩ := List.exists_of_findSome?_eq_some hc
  cases k with
  | common => simp at hm
  | secondary => simp at hm
  | channel id =>
    obtain rfl := Option.some.inj hm
    exact hk

/-- The first ready channel is known, and its recovery is pending. -/
theorem Inv.channelInDiff (h : s.Inv) (hc : s.channelInDiff = some c) :
    ∃ e, s.entry (.channel c) = some e ∧ e.recoveryPending = true ∧ e.recoveryDeferred = false := by
  have hr := (h.queue.mem_iff _).mp (channelInDiff_mem hc)
  cases he : s.entry (.channel c) with
  | none => simp [ready, he] at hr
  | some e =>
    simp only [ready, he, Option.any_some, LiveEntry.isReady, Bool.and_eq_true,
      Bool.not_eq_true'] at hr
    exact ⟨e, rfl, hr⟩

theorem Lowered.setPts {old d : Instant} (hl : Lowered s old d) (hs : s.Sorted)
    (he : s.entry k = some e) (pts : Int32) (now : Instant) : Lowered (s.setPts k pts now) old d := by
  have hnext : (s.setPts k pts now).nextDeadline = s.nextDeadline := by
    rw [setPts_eq hs]
    rfl
  unfold Lowered at hl ⊢
  rw [hnext]
  rcases hl with hl | ⟨hd, hall⟩
  · exact Or.inl hl
  · refine Or.inr ⟨hd, ?_⟩
    intro k' e' he'
    rw [entry_setPts hs, he] at he'
    split at he'
    next =>
      obtain rfl := Option.some.inj he'
      exact hall k e he
    next => exact hall k' e' he'

theorem clearRecovery_eq (hs : s.Sorted) (he : s.entry (.channel c) = some e) :
    s.clearRecovery c = { s.setEntry e.cleared with
      exhaustedChannels := s.exhaustedChannels.erase c } :=
  updateEntry_of_entry (s := { s with exhaustedChannels := s.exhaustedChannels.erase c }) hs he rfl

theorem Good.clearRecovery (h : s.Good) (he : s.entry (.channel c) = some e)
    (hd : e.recoveryDeferred = false) : (s.clearRecovery c).Good := by
  have hok : e.cleared.Ok :=
    LiveEntry.Ok.of_no_gap rfl (by simp [LiveEntry.cleared]) (fun _ => ⟨rfl, rfl⟩)
  rw [clearRecovery_eq h.sorted he]
  refine Good.congr (h.setEntry_known he e.cleared rfl hok ?_) rfl rfl rfl rfl
  simp [LiveEntry.cleared, LiveEntry.isReady, hd]

/-- Before its updates, a channel difference settles the entry of its channel. -/
theorem beginChannelDifference_eq (h : s.Good) (he : s.entry (.channel c) = some e)
    (hp : e.recoveryPending = true) (hd : e.recoveryDeferred = false) (diff : ChannelDifferenceParts)
    (now : Instant) :
    ∃ s', s.beginChannelDifference c diff now = .ok s' ∧ s'.Good ∧ s'.heldUpdates = s.heldUpdates ∧
      s'.date = s.date ∧ s'.seq = s.seq ∧
      (∀ k, s'.entry k = if k = .channel c then some (e.answered diff now) else s.entry k) ∧
      (if diff.isFinal then Lowered s' s.nextDeadline (nextUpdatesDeadline now)
        else s'.nextDeadline = s.nextDeadline) ∧
      (diff.isFinal = true → s'.heldReleaseReady = true) := by
  have hk : e.key = .channel c := h.entry_key he
  let e1 : LiveEntry := e.cleared
  have hclear := clearRecovery_eq h.sorted he
  have h1 := h.clearRecovery he hd
  have hentry1 : ∀ k, (s.clearRecovery c).entry k = if k = .channel c then some e1 else s.entry k := by
    intro k
    rw [hclear]
    exact entry_setEntry_of_key h.sorted e1 hk k
  have he1 : (s.clearRecovery c).entry (.channel c) = some e1 := by rw [hentry1, if_pos rfl]
  have hnogap : ∀ {s'' : MessageBoxes} {e'' : LiveEntry}, s''.entry (.channel c) = some e'' →
      e''.possibleGap = none → ∀ e', s''.entry (.channel c) = some e' →
      (Key.channel c).isChannel = true → e'.possibleGap = none := by
    intro s'' e'' h1 h2 e' h3 _
    rw [h1] at h3
    exact Option.some.inj h3 ▸ h2
  unfold beginChannelDifference
  cases hf : diff.isFinal with
  | true =>
    obtain ⟨s2, hrun, hi2, ⟨_, _, _, hs2⟩, hlow⟩ := tryEndGetDiff_eq h1.toInv he1 hp now
    have hentry2 : ∀ k, s2.entry k = if k = .channel c then some (e1.ended now) else s.entry k := by
      intro k
      have := entry_setEntry_of_key h1.sorted (e1.ended now) hk k
      rw [hs2]
      refine this.trans ?_
      split
      next => rfl
      next hne => rw [hentry1, if_neg hne]
    have he2 : s2.entry (.channel c) = some (e1.ended now) := by rw [hentry2, if_pos rfl]
    have h2 : s2.Good := by
      refine ⟨hi2, h.account.congr fun k => ?_⟩
      rw [hentry2]
      split
      next hkc => rw [hkc, he]; rfl
      next => rfl
    refine ⟨s2.setPts (.channel c) diff.pts now, ?_, ?_, ?_, ?_, ?_, ?_, ?_, ?_⟩
    · simp only [hrun, ↓reduceIte, bind, Except.bind]
      rfl
    · exact h2.setPts (by simp) (hnogap he2 rfl) _ _
    · rw [setPts_eq hi2.sorted, hs2, hclear]
      rfl
    · rw [setPts_eq hi2.sorted, hs2, hclear]
      rfl
    · rw [setPts_eq hi2.sorted, hs2, hclear]
      rfl
    · intro k
      rw [entry_setPts hi2.sorted, he2]
      split
      next => simp [LiveEntry.answered, LiveEntry.ended, LiveEntry.cleared, e1, hf]
      next hne => rw [hentry2, if_neg hne]
    · simp only [↓reduceIte]
      have hnext : (s.clearRecovery c).nextDeadline = s.nextDeadline := by rw [hclear]; rfl
      rw [hnext] at hlow
      exact hlow.setPts hi2.sorted he2 _ _
    · intro _
      rw [setPts_eq hi2.sorted, hs2]
      show ((s.clearRecovery c).heldReleaseReady || true) = true
      exact Bool.or_true _
  | false =>
    refine ⟨(s.clearRecovery c).setPts (.channel c) diff.pts now, rfl, ?_, ?_, ?_, ?_, ?_, ?_,
      by simp⟩
    · exact h1.setPts (by simp) (hnogap he1 rfl) _ _
    · rw [setPts_eq h1.sorted, hclear]
      rfl
    · rw [setPts_eq h1.sorted, hclear]
      rfl
    · rw [setPts_eq h1.sorted, hclear]
      rfl
    · intro k
      rw [entry_setPts h1.sorted, he1]
      split
      next => simp [LiveEntry.answered, LiveEntry.cleared, e1, hf, hp]
      next hne => rw [hentry1, if_neg hne]
    · simp only [Bool.false_eq_true, ↓reduceIte]
      rw [setPts_eq h1.sorted, hclear]
      rfl

theorem Inv.rotate (h : s.Inv) (k : Key) : (s.rotate k).Inv := by
  unfold MessageBoxes.rotate
  split
  next hk => exact ⟨h.sorted, h.entryOk, h.queue.rotate hk, h.heldBound, h.heldOk⟩
  next => exact h

theorem Good.resetDeadline (h : s.Good) (k : Key) (d : Instant) : (s.resetDeadline k d).Good := by
  refine ⟨h.toInv.resetDeadline k d, h.account.congr fun k' => ?_⟩
  rw [entry_resetDeadline h.sorted]
  split
  next hk => rw [hk, Option.isSome_map]
  next => rfl

theorem heldDrain_rest_length (h : s.Inv) (c : Int) (pts : Int32) :
    (s.heldDrain c pts).rest.length ≤ maxHeldUpdates := by
  have h1 : (s.heldDrain c pts).rest.length ≤ (s.heldOf c).length :=
    (drain_rest_sublist _ _ _ _).length_le.trans (sortByKey_perm updateSortKey _).length_eq.le
  have h2 := heldOf_length_le s c
  have h3 := h.heldBound
  omega

/-- Ending a recovery at a position: contiguous held updates stay to be released, and
what lies beyond becomes the gap of the next attempt. -/
theorem Good.retainAndRetry (h : s.Good) (he : s.entry (.channel c) = some e) (failures : Nat)
    (retryAt : Instant) :
    ((s.retainContiguousHeldUpdates c e.pts).1.retryChannelAt (.channel c) failures
      (s.retainContiguousHeldUpdates c e.pts).2 retryAt).Good := by
  have h1 := h.toInv.retainContiguousHeldUpdates c e.pts
  have hahead : ∀ u ∈ (s.heldDrain c e.pts).rest, e.pts.toInt < updateSortKey u := fun u hu =>
    (heldDrain_position_le h.toInv c e.pts).trans_lt (heldDrain_rest_beyond c e.pts u hu)
  rw [retainContiguousHeldUpdates_eq h.toInv] at h1 ⊢
  refine ⟨h1.retryChannelAt he (heldDrain_rest_storable h.toInv e.pts)
    (heldDrain_rest_length h.toInv c e.pts) hahead failures retryAt, ?_⟩
  rw [retryChannelAt_eq h1.sorted he]
  refine Account.setEntry (e := e.backedOff failures _ retryAt) h.account h.sorted ?_
  have hk : e.key = .channel c := h.entry_key he
  show e.key = .secondary → _
  rw [hk]
  simp

end MessageBoxes

end Grammers
