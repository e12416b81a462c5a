import Grammers.UpdatesReceiver

namespace Grammers

open Rpc (InvocationError RpcError)

namespace UpdatesReceiver

variable {provesLogin : UpdatesLike → Bool} {r r' : UpdatesReceiver} {now : Instant}
  {phase : Phase} {resumed : Resumed} {isDue : Bool} {error : InvocationError}
  {counts : Option Int → Nat}

/-- The phases that are only entered while recovery is not paused. -/
def Phase.due : Phase → Bool
  | .gettingState _ => true
  | .storingState _ _ _ => true
  | .batching _ paused => !paused
  | .identifying _ _ => true
  | .preparing _ _ _ _ => true
  | .gettingDifference _ => true
  | .gettingChannelDifference _ => true
  | _ => false

/-- The channel that is recovered is the one that the message box has first. -/
def Phase.Fits (boxes : MessageBoxes) : Phase → Prop
  | .identifying _ channel => boxes.channelInDiff = some channel.channelId
  | .preparing _ channel peer _ =>
    boxes.channelInDiff = some channel.channelId ∧ PeerId.channel channel.channelId = some peer
  | .gettingChannelDifference request => boxes.channelInDiff = some request.channelId
  | _ => True

structure Sound (r : UpdatesReceiver) (phase : Phase) : Prop where
  good : r.messageBox.Good
  fits : phase.Fits r.messageBox

/-- A pause of at least a second and the wait that was asked for, and no longer than a minute or
that wait. -/
structure PausesFor (now : Instant) (error : InvocationError) (until' : Instant) : Prop where
  second : now + recoveryRetryDelay ≤ until'
  wait : ∀ wait, error.retryAfter = some wait → now + wait ≤ until'
  limit : until' ≤ now + recoveryRetryDelayLimit ∨
    ∃ wait, error.retryAfter = some wait ∧ until' ≤ now + wait

/-- The pause and the counts are kept. -/
structure Quiet (r r' : UpdatesReceiver) : Prop where
  paused : r'.recoveryPausedUntil = r.recoveryPausedUntil
  counts : r'.unreadableDifferences = r.unreadableDifferences
  good : r.messageBox.Good → r'.messageBox.Good

theorem Quiet.trans {r'' : UpdatesReceiver} (h : Quiet r r') (h' : Quiet r' r'') : Quiet r r'' :=
  ⟨h'.paused.trans h.paused, h'.counts.trans h.counts, fun hg => h'.good (h.good hg)⟩

theorem Quiet.set_boxes {boxes : MessageBoxes} (h : r.messageBox.Good → boxes.Good) :
    Quiet r { r with messageBox := boxes } := ⟨rfl, rfl, h⟩

theorem extendUpdateQueue_quiet (r : UpdatesReceiver) (result : UpdateAndPeers) :
    Quiet r (r.extendUpdateQueue result) := by
  unfold extendUpdateQueue
  split
  next => exact ⟨rfl, rfl, id⟩
  next => exact ⟨rfl, rfl, id⟩

theorem processSocketUpdates_quiet {updates : UpdatesLike} (hg : r.messageBox.Good)
    (h : r.processSocketUpdates provesLogin updates now = some r') : Quiet r r' := by
  unfold processSocketUpdates at h
  rcases hg.processUpdatesInner updates [] now with ⟨boxes, result, hrun, hgood⟩ | hrun
  · simp only [MessageBoxes.processUpdates, hrun] at h
    cases h
    refine Quiet.trans ?_ (extendUpdateQueue_quiet _ _)
    exact ⟨rfl, rfl, fun _ => hgood⟩
  · simp only [MessageBoxes.processUpdates, hrun] at h
    cases h
    exact ⟨rfl, rfl, fun _ => hg.tryBeginGetDiff .common now⟩

theorem takeReleasedUpdates_quiet (hg : r.messageBox.Good)
    (h : r.takeReleasedUpdates now = some r') : Quiet r r' := by
  unfold takeReleasedUpdates at h
  obtain ⟨boxes, result, hrun, hgood⟩ := hg.takeReleasedUpdates now
  cases result with
  | none =>
    rw [hrun] at h
    cases h
    exact .set_boxes fun _ => hgood
  | some result =>
    rw [hrun] at h
    cases h
    exact Quiet.trans (.set_boxes fun _ => hgood) (extendUpdateQueue_quiet _ _)

theorem pauseRecovery_pauses (r : UpdatesReceiver) (now : Instant) (h : error.retryAfter = none) :
    PausesFor now error (r.pauseRecovery now).recoveryPausedUntil := by
  have hpow : 1 ≤ 2 ^ min r.recoveryFailures 6 := Nat.one_le_two_pow
  have hdelay : recoveryRetryDelay ≤ recoveryRetryDelay * 2 ^ min r.recoveryFailures 6 :=
    Nat.le_mul_of_pos_right _ hpow
  have hlimit : recoveryRetryDelay ≤ recoveryRetryDelayLimit := by decide
  refine ⟨Nat.add_le_add_left (le_min hdelay hlimit) now, ?_, Or.inl ?_⟩
  · rw [h]
    nofun
  · exact Nat.add_le_add_left (Nat.min_le_right _ _) now

theorem pauseRecoveryAfter_pauses (r : UpdatesReceiver) (error : InvocationError) (now : Instant) :
    PausesFor now error (r.pauseRecoveryAfter error now).recoveryPausedUntil := by
  cases hwait : error.retryAfter with
  | none =>
    have hsame : r.pauseRecoveryAfter error now = r.pauseRecovery now := by
      simp only [pauseRecoveryAfter, hwait]
    rw [hsame]
    exact pauseRecovery_pauses r now hwait
  | some wait =>
    have hsame : (r.pauseRecoveryAfter error now).recoveryPausedUntil =
        max (r.pauseRecovery now).recoveryPausedUntil (now + wait) := by
      simp only [pauseRecoveryAfter, hwait]
    obtain ⟨hsecond, -, hlimit⟩ := @pauseRecovery_pauses .other r now rfl
    rw [hsame]
    refine ⟨hsecond.trans (Nat.le_max_left _ _), ?_, ?_⟩
    · intro wait' hwait'
      rw [hwait] at hwait'
      cases hwait'
      exact Nat.le_max_right _ _
    · rcases hlimit with hlimit | ⟨_, hnone, _⟩
      · rcases Nat.le_total (now + wait) (r.pauseRecovery now).recoveryPausedUntil with hle | hle
        · rw [Nat.max_eq_left hle]
          exact Or.inl hlimit
        · rw [Nat.max_eq_right hle]
          exact Or.inr ⟨wait, hwait, Nat.le_refl _⟩
      · cases hnone

theorem retryAfter_of_deserialize (h : error.isDeserialize = true) : error.retryAfter = none := by
  unfold InvocationError.isDeserialize at h
  unfold InvocationError.retryAfter
  cases hroot : error.rootCause with
  | rpc e => rw [hroot] at h; cases h
  | _ => rfl

theorem unreadable_pauses (now : Instant) (h : error.isDeserialize = true) :
    PausesFor now error (now + recoveryRetryDelay) := by
  refine ⟨Nat.le_refl _, ?_, Or.inl (Nat.add_le_add_left (by decide) now)⟩
  rw [retryAfter_of_deserialize h]
  nofun

theorem pauseRecoveryAfter_rest (r : UpdatesReceiver) (error : InvocationError) (now : Instant) :
    (r.pauseRecoveryAfter error now).unreadableDifferences = r.unreadableDifferences ∧
      (r.pauseRecoveryAfter error now).messageBox = r.messageBox := by
  unfold pauseRecoveryAfter
  cases error.retryAfter <;> exact ⟨rfl, rfl⟩

/-- What resuming `next` does: either the pause is kept, and nothing is returned as an error where
recovery was due; or recovery was due, and a pause is set for the error that is returned. -/
inductive Paced (r : UpdatesReceiver) (isDue : Bool) (now : Instant) (counts : Option Int → Nat) :
    Resumed → Prop
  | kept {r' : UpdatesReceiver} {phase : Phase} {returned : Option Returned}
      (paused : r'.recoveryPausedUntil = r.recoveryPausedUntil)
      (counted : r'.unreadableDifferences = counts) (sound : Sound r' phase)
      (enters : phase.due = true → isDue = true ∨ r.recoveryPausedUntil ≤ now)
      (fine : isDue = true → ∀ error, returned ≠ some (.error error)) :
      Paced r isDue now counts (r', phase, returned)
  | failed {r' : UpdatesReceiver} {error : InvocationError} (wasDue : isDue = true)
      (counted : r'.unreadableDifferences = counts)
      (good : r'.messageBox.Good) (pauses : PausesFor now error r'.recoveryPausedUntil) :
      Paced r isDue now counts (r'.fail error)

theorem Paced.congr (h : Paced r' isDue now counts resumed)
    (hp : r'.recoveryPausedUntil = r.recoveryPausedUntil) : Paced r isDue now counts resumed := by
  cases h with
  | kept paused counted sound enters fine =>
    rw [hp] at paused enters
    exact .kept paused counted sound enters fine
  | failed hdue counted good pauses => exact .failed hdue counted good pauses

theorem Paced.of_quiet (hq : Quiet r r')
    (h : Paced r' isDue now r'.unreadableDifferences resumed) :
    Paced r isDue now r.unreadableDifferences resumed := by
  rw [hq.counts] at h
  exact h.congr hq.paused

theorem Paced.goTo (hg : r.messageBox.Good) (fits : phase.Fits r.messageBox)
    (enters : phase.due = true → isDue = true ∨ r.recoveryPausedUntil ≤ now) :
    Paced r isDue now r.unreadableDifferences (r.goTo phase) :=
  .kept rfl rfl ⟨hg, fits⟩ enters nofun

theorem Paced.looped (hg : r.messageBox.Good) :
    Paced r isDue now r.unreadableDifferences r.loop :=
  .kept rfl rfl ⟨hg, trivial⟩ nofun nofun

theorem popOr_paced {next : Option Resumed} (hg : r.messageBox.Good)
    (hnext : next = some resumed → Paced r isDue now r.unreadableDifferences resumed)
    (h : r.popOr next = some resumed) : Paced r isDue now r.unreadableDifferences resumed := by
  unfold popOr at h
  split at h
  next =>
    cases h
    exact .kept rfl rfl ⟨hg, trivial⟩ nofun fun _ _ => nofun
  next => exact hnext h

theorem channelDifference_fits {channel : GetChannelDifference}
    (h : r.channelDifference = some (some channel)) :
    r.messageBox.channelInDiff = some channel.channelId := by
  unfold channelDifference MessageBoxes.getChannelDifference at h
  cases hc : r.messageBox.channelInDiff with
  | none =>
    rw [hc] at h
    cases h
  | some c =>
    rw [hc] at h
    cases he : r.messageBox.entry (.channel c) with
    | none => simp [he, Except.toOption] at h
    | some e =>
      simp only [he, Except.toOption, Option.some.injEq] at h
      rw [← h]

theorem start_paced {generation : Nat} (hg : r.messageBox.Good)
    (h : r.start provesLogin generation now = some resumed) :
    Paced r false now r.unreadableDifferences resumed := by
  obtain ⟨r1, h1, h⟩ := Option.bind_eq_some_iff.mp h
  obtain ⟨r2, h2, h⟩ := Option.bind_eq_some_iff.mp h
  have hq1 : Quiet r r1 := by
    unfold noticeFailure at h1
    split at h1
    next =>
      obtain ⟨r0, h0, rfl⟩ := Option.map_eq_some_iff.mp h1
      exact (processSocketUpdates_quiet hg h0).trans ⟨rfl, rfl, id⟩
    next =>
      cases h1
      exact ⟨rfl, rfl, id⟩
  have hq2 := hq1.trans (takeReleasedUpdates_quiet (hq1.good hg) h2)
  refine .of_quiet hq2 (popOr_paced (hq2.good hg) (fun hnext => ?_) h)
  cases hnext
  exact .goTo (hq2.good hg) trivial nofun

theorem checkSelf_paced (hg : r.messageBox.Good) (h : r.checkSelf now = some resumed) :
    Paced r false now r.unreadableDifferences resumed := by
  obtain ⟨channel, -, h⟩ := Option.bind_eq_some_iff.mp h
  have hg' := hg.checkDeadlines now
  refine .of_quiet (.set_boxes fun _ => hg') ?_
  simp only at h
  split at h
  next =>
    cases h
    exact .kept rfl rfl ⟨hg', trivial⟩ nofun nofun
  next =>
    cases h
    exact .goTo hg' trivial nofun

theorem probe_paced {received : Option UpdatesLike} (hg : r.messageBox.Good)
    (h : r.probe provesLogin received now = some resumed) :
    Paced r false now r.unreadableDifferences resumed := by
  unfold probe at h
  split at h
  next updates =>
    split at h
    next =>
      obtain ⟨r1, h1, h⟩ := Option.bind_eq_some_iff.mp h
      have hq := processSocketUpdates_quiet hg h1
      exact .of_quiet hq (popOr_paced (hq.good hg) (checkSelf_paced (hq.good hg)) h)
    next => cases h
  next => exact checkSelf_paced hg h

theorem sample_paced (hg : r.messageBox.Good) (needsAuthorization : Bool) (now : Instant) :
    Paced r false now r.unreadableDifferences (r.sample needsAuthorization now) := by
  simp only [sample]
  split
  next h =>
    rw [Bool.and_eq_true, Bool.not_eq_true', decide_eq_false_iff_not] at h
    exact .kept rfl rfl ⟨hg, trivial⟩ (fun _ => Or.inr (Nat.not_lt.mp h.2)) nofun
  next =>
    refine .kept rfl rfl ⟨hg, trivial⟩ (fun hdue => Or.inr ?_) nofun
    simpa [Phase.due] using hdue

theorem Paced.paused_failed (hdue : isDue = true) (hg : r.messageBox.Good)
    (h : error.retryAfter = none) :
    Paced r isDue now r.unreadableDifferences ((r.pauseRecovery now).fail error) :=
  .failed hdue rfl hg (pauseRecovery_pauses r now h)

theorem Paced.paused_after (hdue : isDue = true) (hg : r.messageBox.Good)
    (error : InvocationError) :
    Paced r isDue now r.unreadableDifferences ((r.pauseRecoveryAfter error now).fail error) := by
  obtain ⟨hcounts, hboxes⟩ := pauseRecoveryAfter_rest r error now
  exact .failed hdue hcounts (hboxes ▸ hg) (pauseRecoveryAfter_pauses r error now)

theorem stateReply_paced {reply : Except InvocationError ServerState} (hg : r.messageBox.Good)
    (needsAuthorization : Bool) (now : Instant) :
    Paced r true now r.unreadableDifferences (r.stateReply needsAuthorization reply now) := by
  unfold stateReply
  split
  next state =>
    split
    next => exact .paused_failed rfl hg rfl
    next => exact .goTo hg trivial fun _ => Or.inl rfl
  next error =>
    split
    next => exact .kept rfl rfl ⟨hg, trivial⟩ nofun nofun
    next =>
      have hq : Quiet r { r with shouldGetState := true } := ⟨rfl, rfl, id⟩
      exact .of_quiet hq (.paused_after (r := { r with shouldGetState := true }) rfl hg error)

theorem discardAccountState_hasPrimaryState {boxes : MessageBoxes} (hg : r.messageBox.Good)
    (h : r.messageBox.discardAccountState now = .ok boxes) : boxes.hasPrimaryState = false := by
  obtain ⟨s1, s2, -, hi1, hp1, hrun, hi2, hall, -⟩ := MessageBoxes.discardAccountState_eq hg now
  obtain ⟨s2', hrun', -, -, hentry⟩ := hp1.tryEndGetDiff .secondary now
  cases hrun.symm.trans hrun'
  cases h.symm.trans hall
  rw [MessageBoxes.hasPrimaryState, MessageBoxes.entry_popEntry hi2.sorted, if_neg (by rintro ⟨⟩), hentry,
    if_neg (by rintro ⟨⟩), MessageBoxes.entry_popEntry hi1.sorted, if_pos rfl]
  rfl

theorem discardAccountState_set (hg : r.messageBox.Good) (state : ServerState) (now : Instant) :
    ∃ boxes, r.messageBox.discardAccountState now = .ok boxes ∧ boxes.Good ∧
      (boxes.setState state now).Good := by
  obtain ⟨boxes, hrun, hgood⟩ := hg.discardAccountState now
  exact ⟨boxes, hrun, hgood,
    hgood.setState (discardAccountState_hasPrimaryState hg hrun) state now⟩

theorem stateStored_paced {answer : Except StorageError Unit} {needsAuthorization : Bool}
    {state : ServerState} (hg : r.messageBox.Good)
    (h : r.stateStored needsAuthorization state answer now = some resumed) :
    Paced r true now r.unreadableDifferences resumed := by
  unfold stateStored at h
  split at h
  next =>
    cases h
    exact .paused_failed rfl hg rfl
  next =>
    obtain ⟨boxes, hrun, -, hgood⟩ := discardAccountState_set hg state now
    rw [hrun] at h
    cases h
    exact .kept rfl rfl ⟨hgood, trivial⟩ (fun _ => Or.inl rfl) nofun

theorem request_paced {channel : Option ChannelRequest} {otherwise : Phase}
    (hg : r.messageBox.Good)
    (fits : ∀ request, channel = some request →
      r.messageBox.channelInDiff = some request.channelId)
    (hother : otherwise.Fits r.messageBox) (difference : Option GetDifference) :
    Paced r true now r.unreadableDifferences (r.request difference channel otherwise) := by
  unfold request
  split
  next => exact .kept rfl rfl ⟨hg, trivial⟩ (fun _ => Or.inl rfl) nofun
  next request channel =>
    split
    next => exact .kept rfl rfl ⟨hg, trivial⟩ (fun _ => Or.inl rfl) nofun
    next => exact .kept rfl rfl ⟨hg, fits channel rfl⟩ (fun _ => Or.inl rfl) nofun
  next channel => exact .kept rfl rfl ⟨hg, fits channel rfl⟩ (fun _ => Or.inl rfl) nofun
  next => exact .goTo hg hother fun _ => Or.inl rfl

theorem prepare_paced {channel : GetChannelDifference} (hg : r.messageBox.Good)
    (hc : r.messageBox.channelInDiff = some channel.channelId) (difference : Option GetDifference)
    (isBot : Bool) (now : Instant) :
    Paced r true now r.unreadableDifferences (r.prepare difference channel isBot now) := by
  unfold prepare
  split
  next peer hpeer => exact .goTo hg ⟨hc, hpeer⟩ fun _ => Or.inl rfl
  next => exact .paused_after rfl hg .deserialize

theorem takeLive_quiet {paused : Bool} {received : Option UpdatesLike} (hg : r.messageBox.Good)
    (h : r.takeLive provesLogin paused received now = some r') : Quiet r r' := by
  obtain ⟨channel, -, h⟩ := Option.bind_eq_some_iff.mp h
  cases received with
  | none =>
    cases h
    exact ⟨rfl, rfl, id⟩
  | some updates =>
    simp only [Option.ite_none_right_eq_some] at h
    exact processSocketUpdates_quiet hg h.2

theorem batch_paced {needsAuthorization paused : Bool} {received : Option UpdatesLike}
    (hg : r.messageBox.Good)
    (h : r.batch provesLogin needsAuthorization paused received now = some resumed) :
    Paced r (!paused) now r.unreadableDifferences resumed := by
  obtain ⟨r1, h1, h⟩ := Option.bind_eq_some_iff.mp h
  have hq := takeLive_quiet hg h1
  refine .of_quiet hq (popOr_paced (hq.good hg) (fun h => ?_) h)
  have hg' := (hq.good hg).checkDeadlines now
  obtain ⟨channel, hchannel, h⟩ := Option.bind_eq_some_iff.mp h
  refine .of_quiet (.set_boxes fun _ => hg') ?_
  simp only at h hchannel
  split at h
  next hdue =>
    rw [Bool.and_eq_true] at hdue
    rw [hdue.2]
    split at h
    next channel isBot _ =>
      cases h
      exact prepare_paced hg' (channelDifference_fits hchannel) _ isBot now
    next channel _ =>
      cases h
      exact .goTo hg' (channelDifference_fits hchannel) fun _ => Or.inl rfl
    next =>
      cases h
      exact request_paced hg' (fun _ h => by cases h) (by trivial) _
  next =>
    cases h
    exact .goTo hg' trivial nofun

theorem identified_paced {channel : GetChannelDifference} (hg : r.messageBox.Good)
    (hc : r.messageBox.channelInDiff = some channel.channelId) (difference : Option GetDifference)
    (answer : Except StorageError (Option PeerInfo)) (now : Instant) :
    Paced r true now r.unreadableDifferences (r.identified difference channel answer now) := by
  unfold identified
  split
  next => exact .paused_failed rfl hg rfl
  next bot _ =>
    have hq : Quiet r { r with authorization := .confirmed, isBot := some (bot.getD false) } :=
      ⟨rfl, rfl, id⟩
    exact .of_quiet hq (prepare_paced
      (r := { r with authorization := .confirmed, isBot := some (bot.getD false) }) hg hc _ _ now)
  next =>
    have hq : Quiet r { r with isBot := some false } := ⟨rfl, rfl, id⟩
    exact .of_quiet hq (prepare_paced (r := { r with isBot := some false }) hg hc _ _ now)

theorem channelDifferenceAccessible_keeps {s s' : MessageBoxes}
    (h : s.channelDifferenceAccessible = .ok s') : s'.channelInDiff = s.channelInDiff := by
  unfold MessageBoxes.channelDifferenceAccessible at h
  split at h
  next => cases h
  next =>
    cases h
    rfl

theorem exhaustGrace_keeps {c : Int} {isBot : Bool} {boxes : MessageBoxes} {exhausted : Bool}
    (hg : r.messageBox.Good) (hc : r.messageBox.channelInDiff = some c)
    (h : r.exhaustGrace isBot = some (boxes, exhausted)) :
    boxes.Good ∧ boxes.channelInDiff = r.messageBox.channelInDiff := by
  unfold exhaustGrace at h
  split at h
  next =>
    obtain ⟨s', spent, hrun, hgood⟩ := hg.tryExhaustChannelGrace hc
    rw [hrun] at h
    cases h
    refine ⟨hgood, ?_⟩
    unfold MessageBoxes.tryExhaustChannelGrace at hrun
    rw [hc] at hrun
    simp only at hrun
    split at hrun
    next =>
      cases hrun
      rfl
    next =>
      cases hrun
      rfl
  next =>
    cases h
    exact ⟨hg, rfl⟩

theorem channel_of_id {id c : Int} {peer : PeerId} (h : PeerId.channel c = some peer)
    (hid : PeerId.channelUnchecked id = peer) : id = c := by
  unfold PeerId.channel at h
  rw [Option.ite_none_right_eq_some] at h
  obtain ⟨-, h⟩ := h
  have heq := hid.trans (Option.some.inj h).symm
  simp only [PeerId.channelUnchecked, PeerId.mk.injEq] at heq
  omega

theorem prepared_paced {channel : GetChannelDifference} {difference : Option GetDifference}
    {peer : PeerId} {isBot : Bool} {answer : Except StorageError (Option PeerInfo)}
    (hg : r.messageBox.Good) (hc : r.messageBox.channelInDiff = some channel.channelId)
    (hpeer : PeerId.channel channel.channelId = some peer)
    (h : r.prepared difference channel peer isBot answer now = some resumed) :
    Paced r true now r.unreadableDifferences resumed := by
  unfold prepared at h
  split at h
  next =>
    cases h
    exact .paused_after rfl hg .other
  next info =>
    split at h
    next => cases h
    next hid =>
      split at h
      next id hash _ =>
        obtain ⟨boxes, hrun, hgood⟩ := hg.channelDifferenceAccessible hc
        rw [hrun] at h
        cases h
        have hid' : PeerId.channelUnchecked id = peer := by
          by_contra hne
          exact hid (decide_eq_true hne)
        have hsame : id = channel.channelId := channel_of_id hpeer hid'
        have hkeeps := (channelDifferenceAccessible_keeps hrun).trans hc
        refine .of_quiet (.set_boxes fun _ => hgood) (request_paced hgood ?_ (by trivial) _)
        intro request hrequest
        cases hrequest
        rw [hsame]
        exact hkeeps
      next =>
        obtain ⟨⟨boxes, exhausted⟩, hgrace, h⟩ := Option.bind_eq_some_iff.mp h
        obtain ⟨hgood, hkeeps⟩ := exhaustGrace_keeps hg hc hgrace
        have hc' := hkeeps.trans hc
        refine .of_quiet (.set_boxes fun _ => hgood) ?_
        simp only at h
        split at h
        next =>
          cases h
          refine request_paced hgood ?_ (by trivial) _
          intro request hrequest
          cases hrequest
          exact hc'
        next =>
          obtain ⟨boxes', hrun, hgood'⟩ := hgood.deferChannelDifference hc' (fromSecs 1) now
          rw [hrun] at h
          cases h
          exact .kept rfl rfl ⟨hgood', trivial⟩ nofun nofun

/-! Replies to differences, and the counts of those that are unreadable. -/

def abandons (count : Nat) (unreadable : Bool) : Bool :=
  unreadable && decide (maxUnreadableDifferences ≤ count + 1)

def countAfter (count : Nat) (unreadable : Bool) : Nat :=
  if !unreadable || abandons count unreadable then 0 else count + 1

/-- The reply is an error of reading it, or is rejected. -/
def accountUnreadable (r : UpdatesReceiver) (reply : Except InvocationError Difference)
    (now : Instant) : Bool :=
  match reply with
  | .error error => error.isDeserialize
  | .ok response => !(r.messageBox.tryApplyDifference response now).isOk

def channelUnreadable (r : UpdatesReceiver) (reply : Except InvocationError ChannelDifference)
    (now : Instant) : Bool :=
  match reply with
  | .error error => error.isDeserialize
  | .ok response => !(r.messageBox.tryApplyChannelDifference response now).isOk

/-- The sequence of which a difference request is completed, and whether its reply is unreadable. -/
def completed (r : UpdatesReceiver) (now : Instant) : Phase → Action → Option (Option Int × Bool)
  | .gettingDifference _, .difference reply => some (none, r.accountUnreadable reply now)
  | .gettingChannelDifference request, .channelDifference reply =>
    some (some request.channelId, r.channelUnreadable reply now)
  | _, _ => none

def countsAfter (r : UpdatesReceiver) (sequence : Option Int) (unreadable : Bool) :
    Option Int → Nat :=
  Function.update r.unreadableDifferences sequence
    (countAfter (r.unreadableDifferences sequence) unreadable)

theorem differenceUnreadable_eq (r : UpdatesReceiver) (sequence : Option Int) :
    r.differenceUnreadable sequence =
      ({ r with unreadableDifferences := r.countsAfter sequence true },
        abandons (r.unreadableDifferences sequence) true) := by
  simp only [differenceUnreadable, setUnreadable, countsAfter, countAfter, abandons,
    Bool.true_and, Bool.not_true, Bool.false_or]

/-- Without an account position the backlog of the account is given up, but only then. -/
theorem accountRecoveryFailed_spec (hg : r.messageBox.Good)
    (h : r.accountRecoveryFailed error now = some resumed) :
    Paced r true now (r.countsAfter none error.isDeserialize) resumed ∧
      ∃ r' : UpdatesReceiver, resumed = r'.fail error ∧
        if abandons (r.unreadableDifferences none) error.isDeserialize then
          r.messageBox.discardAccountState now = .ok r'.messageBox
        else r'.messageBox = r.messageBox := by
  unfold accountRecoveryFailed at h
  cases hd : error.isDeserialize with
  | false =>
    rw [hd, Bool.not_false, if_pos rfl] at h
    cases h
    obtain ⟨hcounts, hboxes⟩ := pauseRecoveryAfter_rest r error now
    refine ⟨.failed rfl ?_ (hboxes ▸ hg) (pauseRecoveryAfter_pauses r error now), _, rfl, hboxes⟩
    rw [setUnreadable, hcounts]
    rfl
  | true =>
    rw [hd, Bool.not_true, if_neg Bool.false_ne_true, differenceUnreadable_eq] at h
    simp only at h
    change (if abandons (r.unreadableDifferences none) true = true then _ else _) = _ at h
    split at h
    next habandon =>
      obtain ⟨boxes, hrun, hgood⟩ := hg.discardAccountState now
      have hrun' : (r.pauseRecoveryForUnreadableReply now).messageBox.discardAccountState now =
          .ok boxes := hrun
      rw [hrun'] at h
      cases h
      exact ⟨.failed rfl rfl hgood (unreadable_pauses now hd), _, rfl, by rw [if_pos habandon]; exact hrun⟩
    next hkeep =>
      cases h
      exact ⟨.failed rfl rfl hg (unreadable_pauses now hd), _, rfl, by rw [if_neg hkeep]; rfl⟩

theorem channelDifferenceUnreadable_spec {request : ChannelRequest} (hg : r.messageBox.Good)
    (hc : r.messageBox.channelInDiff = some request.channelId) (hd : error.isDeserialize = true)
    (h : r.channelDifferenceUnreadable request error now = some resumed) :
    Paced r true now (r.countsAfter (some request.channelId) true) resumed ∧
      ∃ (r' : UpdatesReceiver) (boxes : MessageBoxes), resumed = r'.fail error ∧
        r.messageBox.endChannelDifference
          (if abandons (r.unreadableDifferences (some request.channelId)) true then .banned
            else .temporaryServerIssues) now = .ok boxes ∧
        r'.messageBox = boxes.retryChannelWithoutDelay request.channelId now := by
  unfold channelDifferenceUnreadable at h
  rw [differenceUnreadable_eq] at h
  obtain ⟨r1, h1, h⟩ := Option.bind_eq_some_iff.mp h
  obtain ⟨boxes, hrun, h1⟩ := Option.bind_eq_some_iff.mp h1
  cases h1
  cases h
  obtain ⟨boxes', hrun', hgood⟩ := hg.endChannelDifference hc
    (if abandons (r.unreadableDifferences (some request.channelId)) true then .banned
      else .temporaryServerIssues) now
  change (r.messageBox.endChannelDifference _ now).toOption = some boxes at hrun
  rw [hrun'] at hrun
  cases hrun
  exact ⟨.failed rfl rfl (hgood.retryChannelWithoutDelay request.channelId now)
    (unreadable_pauses now hd), _, _, rfl, hrun', rfl⟩

theorem is_of_deserialize (h : error.isDeserialize = true) (name : String) :
    error.is name = false := by
  unfold InvocationError.isDeserialize at h
  unfold InvocationError.is
  cases hroot : error.rootCause with
  | rpc e => rw [hroot] at h; cases h
  | _ => rfl

theorem hasCode_of_deserialize (h : error.isDeserialize = true) (codes : List Int32) :
    error.hasCode codes = false := by
  unfold InvocationError.isDeserialize at h
  unfold InvocationError.hasCode
  cases hroot : error.rootCause with
  | rpc e => rw [hroot] at h; cases h
  | _ => rfl

theorem differenceReply_spec {reply : Except InvocationError Difference} (hg : r.messageBox.Good)
    (h : r.differenceReply reply now = some resumed) :
    Paced r true now (r.countsAfter none (r.accountUnreadable reply now)) resumed ∧
      (r.accountUnreadable reply now = true → ∃ error, resumed.2.2 = some (.error error)) ∧
      ∀ error, resumed.2.2 = some (.error error) →
        if abandons (r.unreadableDifferences none) (r.accountUnreadable reply now) then
          r.messageBox.discardAccountState now = .ok resumed.1.messageBox
        else resumed.1.messageBox = r.messageBox := by
  cases reply with
  | error e =>
    obtain ⟨hpaced, r', rfl, hboxes⟩ := accountRecoveryFailed_spec hg h
    exact ⟨hpaced, fun _ => ⟨_, rfl⟩, fun _ _ => hboxes⟩
  | ok response =>
    have hrejected : r.messageBox.tryApplyDifference response now = .error (.gap r.messageBox) ∨
        ∃ boxes applied, r.messageBox.tryApplyDifference response now = .ok (boxes, applied) ∧
          boxes.Good := by
      rcases MessageBoxes.tryApplyDifference_cases r.messageBox response now with hrun | ⟨-, -, heq⟩
      · exact Or.inl hrun
      · obtain ⟨boxes, applied, hrun, hgood⟩ := hg.applyDifference response now
        exact Or.inr ⟨boxes, applied, heq.trans hrun, hgood⟩
    simp only [differenceReply] at h
    rcases hrejected with hrun | ⟨boxes, applied, hrun, hgood⟩
    · have hunreadable : r.accountUnreadable (.ok response) now = true := by
        simp [accountUnreadable, hrun, Except.isOk, Except.toBool]
      rw [hrun] at h
      obtain ⟨hpaced, r', rfl, hboxes⟩ :=
        accountRecoveryFailed_spec (r := { r with preferLive := true }) hg h
      rw [hunreadable]
      exact ⟨hpaced.congr rfl, fun _ => ⟨_, rfl⟩, fun _ _ => hboxes⟩
    · have hreadable : r.accountUnreadable (.ok response) now = false := by
        simp [accountUnreadable, hrun, Except.isOk, Except.toBool]
      rw [hrun] at h
      cases h
      rw [hreadable]
      have hq := extendUpdateQueue_quiet
        { { { r with preferLive := true } with messageBox := boxes }.setUnreadable none 0 with
          recoveryFailures := 0 } applied
      exact ⟨.kept hq.paused hq.counts ⟨hq.good hgood, trivial⟩ (by rintro ⟨⟩) (by rintro - _ ⟨⟩),
        by rintro ⟨⟩, by rintro _ ⟨⟩⟩

/-- What a reply to a channel difference does to the recovery of the channel if it is unreadable. -/
structure EndedUnreadable (r : UpdatesReceiver) (channelId : Int) (now : Instant)
    (resumed : Resumed) : Prop where
  ended : ∃ boxes : MessageBoxes, r.messageBox.endChannelDifference
    (if abandons (r.unreadableDifferences (some channelId)) true then .banned
      else .temporaryServerIssues) now = .ok boxes ∧
    resumed.1.messageBox = boxes.retryChannelWithoutDelay channelId now

theorem Paced.ended {channelId : Int} {reason : PrematureEndReason} (hg : r.messageBox.Good)
    (hc : r.messageBox.channelInDiff = some channelId)
    (h : (r.endChannelDifference reason now).map loop = some resumed) :
    Paced r true now r.unreadableDifferences resumed := by
  obtain ⟨r', h', rfl⟩ := Option.map_eq_some_iff.mp h
  obtain ⟨boxes, hrun, hgood⟩ := hg.endChannelDifference hc reason now
  unfold endChannelDifference at h'
  rw [hrun] at h'
  cases h'
  exact .kept rfl rfl ⟨hgood, trivial⟩ nofun nofun

theorem channelDifferenceReply_spec {request : ChannelRequest}
    {reply : Except InvocationError ChannelDifference} (hg : r.messageBox.Good)
    (hc : r.messageBox.channelInDiff = some request.channelId)
    (h : r.channelDifferenceReply request reply now = some resumed) :
    Paced r true now (r.countsAfter (some request.channelId) (r.channelUnreadable reply now))
        resumed ∧
      (r.channelUnreadable reply now = true →
        EndedUnreadable r request.channelId now resumed) := by
  have hunread : ∀ {error : InvocationError}, error.isDeserialize = true →
      { r with preferLive := true }.channelDifferenceUnreadable request error now = some resumed →
      Paced r true now (r.countsAfter (some request.channelId) true) resumed ∧
        EndedUnreadable r request.channelId now resumed := by
    intro error hd hrun
    obtain ⟨hpaced, r', boxes, rfl, hend, hboxes⟩ :=
      channelDifferenceUnreadable_spec (r := { r with preferLive := true }) hg hc hd hrun
    exact ⟨hpaced.congr rfl, ⟨boxes, hend, hboxes⟩⟩
  cases reply with
  | error e =>
    simp only [channelDifferenceReply] at h
    cases hd : e.isDeserialize with
    | true =>
      have hstops : stopsRecovery e = false := by
        simp [stopsRecovery, is_of_deserialize hd, hasCode_of_deserialize hd]
      have hends : endsRecovery e = false := by
        simp [endsRecovery, is_of_deserialize hd]
      rw [hd, hstops, hends, is_of_deserialize hd] at h
      simp only [if_true, Bool.false_eq_true, if_false] at h
      rw [channelUnreadable, hd]
      obtain ⟨hpaced, hended⟩ := hunread hd h
      exact ⟨hpaced, fun _ => hended⟩
    | false =>
      rw [hd] at h
      simp only [Bool.false_eq_true, if_false] at h
      rw [channelUnreadable, hd]
      refine ⟨?_, by rintro ⟨⟩⟩
      have hcounts : r.countsAfter (some request.channelId) false =
          ({ r with preferLive := true }.setUnreadable
            (some request.channelId) 0).unreadableDifferences := rfl
      have hpause : ({ r with preferLive := true }.setUnreadable
          (some request.channelId) 0).recoveryPausedUntil = r.recoveryPausedUntil := rfl
      have hg' : ({ r with preferLive := true }.setUnreadable
          (some request.channelId) 0).messageBox.Good := hg
      have hc' : ({ r with preferLive := true }.setUnreadable
          (some request.channelId) 0).messageBox.channelInDiff = some request.channelId := hc
      rw [hcounts]
      generalize { r with preferLive := true }.setUnreadable (some request.channelId) 0 = r1
        at h hpause hg' hc'
      refine Paced.congr ?_ hpause
      split at h
      next =>
        cases h
        exact .paused_after rfl hg' e
      next =>
        split at h
        next => exact .ended hg' hc' h
        next =>
          split at h
          next => exact .ended hg' hc' h
          next =>
            split at h
            next => exact .ended hg' hc' h
            next =>
              cases h
              exact .paused_after rfl hg' e
  | ok response =>
    simp only [channelDifferenceReply] at h
    rcases hg.tryApplyChannelDifference response now with hrun | ⟨boxes, applied, hrun, hgood⟩
    · have hunreadable : r.channelUnreadable (.ok response) now = true := by
        simp [channelUnreadable, hrun, Except.isOk, Except.toBool]
      rw [hrun] at h
      rw [hunreadable]
      obtain ⟨hpaced, hended⟩ := hunread rfl h
      exact ⟨hpaced, fun _ => hended⟩
    · have hreadable : r.channelUnreadable (.ok response) now = false := by
        simp [channelUnreadable, hrun, Except.isOk, Except.toBool]
      rw [hrun] at h
      rw [hreadable]
      refine ⟨?_, by rintro ⟨⟩⟩
      cases h
      have hq := fun r' : UpdatesReceiver => extendUpdateQueue_quiet r' applied
      split
      next =>
        exact .kept (hq _).paused (hq _).counts ⟨(hq _).good hgood, trivial⟩ (by rintro ⟨⟩)
          (by rintro - _ ⟨⟩)
      next =>
        exact .kept (hq _).paused (hq _).counts ⟨(hq _).good hgood, trivial⟩ (by rintro ⟨⟩)
          (by rintro - _ ⟨⟩)

/-- The counts once `next` has been resumed: only that of a sequence whose difference is completed
changes. -/
def countsOf (r : UpdatesReceiver) (now : Instant) (phase : Phase) (a : Action) :
    Option Int → Nat :=
  match r.completed now phase a with
  | some (sequence, unreadable) => r.countsAfter sequence unreadable
  | none => r.unreadableDifferences

theorem resume_paced {a : Action} (hs : Sound r phase)
    (h : r.resume provesLogin now phase a = some resumed) :
    Paced r phase.due now (r.countsOf now phase a) resumed := by
  obtain ⟨hg, hfits⟩ := hs
  cases phase with
  | idle =>
    cases a with
    | start generation => exact start_paced hg h
    | _ => cases h
  | probing =>
    cases a with
    | live received => exact probe_paced hg h
    | cancel =>
      cases h
      exact .looped hg
    | _ => cases h
  | checkingSelf needsAuthorization =>
    cases a with
    | self answer =>
      simp only [resume] at h
      split at h
      next =>
        cases h
        exact .kept rfl rfl ⟨hg, trivial⟩ nofun nofun
      next =>
        cases h
        exact .kept rfl rfl ⟨hg, trivial⟩ nofun nofun
      next =>
        cases h
        exact .goTo hg trivial nofun
    | cancel =>
      cases h
      exact .looped hg
    | _ => cases h
  | sampling needsAuthorization =>
    cases a with
    | sample =>
      cases h
      exact sample_paced hg needsAuthorization now
    | cancel =>
      cases h
      exact .looped hg
    | _ => cases h
  | gettingState needsAuthorization =>
    cases a with
    | state reply =>
      cases h
      exact stateReply_paced hg needsAuthorization now
    | cancel =>
      cases h
      exact .looped hg
    | _ => cases h
  | storingState needsAuthorization state saved =>
    cases a with
    | stored answer => exact stateStored_paced hg h
    | cancel =>
      cases h
      exact .looped hg
    | _ => cases h
  | batching needsAuthorization paused =>
    cases a with
    | live received => exact batch_paced hg h
    | cancel =>
      cases h
      exact .looped hg
    | _ => cases h
  | identifying difference channel =>
    cases a with
    | self answer =>
      cases h
      exact identified_paced hg hfits difference answer now
    | cancel =>
      cases h
      exact .looped hg
    | _ => cases h
  | preparing difference channel peer isBot =>
    cases a with
    | peer answer => exact prepared_paced hg hfits.1 hfits.2 h
    | cancel =>
      cases h
      exact .looped hg
    | _ => cases h
  | gettingDifference request =>
    cases a with
    | difference reply => exact (differenceReply_spec hg h).1
    | cancel =>
      cases h
      exact .looped hg
    | _ => cases h
  | gettingChannelDifference request =>
    cases a with
    | channelDifference reply => exact (channelDifferenceReply_spec hg hfits h).1
    | cancel =>
      cases h
      exact .looped hg
    | _ => cases h
  | waiting deadline =>
    cases a with
    | received updates =>
      obtain ⟨r', h', rfl⟩ := Option.map_eq_some_iff.mp h
      have hq := processSocketUpdates_quiet hg h'
      exact .of_quiet hq (.looped (hq.good hg))
    | closed =>
      cases h
      exact .kept rfl rfl ⟨hg, trivial⟩ nofun nofun
    | timeout =>
      simp only [resume, Option.ite_none_right_eq_some] at h
      cases h.2
      exact .looped hg
    | homeFailure =>
      cases h
      exact .looped hg
    | cancel =>
      cases h
      exact .looped hg
    | _ => cases h

end UpdatesReceiver

end Grammers
