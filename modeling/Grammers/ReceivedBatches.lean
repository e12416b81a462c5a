import Grammers.UpdatesReceiver

namespace Grammers

open Rpc (InvocationError)

/-- A batch with neither updates nor peers is not queued. -/
def UpdateAndPeers.isQueued (batch : UpdateAndPeers) : Bool :=
  batch.updates ≠ [] ∨ batch.users ≠ [] ∨ batch.chats ≠ []

namespace UpdatesReceiver

/-- A call of the message box that can produce a batch, with what it returns: of a payload that was
taken out of the channel, or of a home connection that failed, and so on. -/
inductive Call where
  | processUpdates (updates : UpdatesLike) (result : Except Exit (MessageBoxes × UpdateAndPeers))
  | processClosed (result : Except Exit (MessageBoxes × UpdateAndPeers))
  | takeReleasedUpdates (result : Except Exit (MessageBoxes × Option UpdateAndPeers))
  | tryApplyDifference (result : Except Exit (MessageBoxes × UpdateAndPeers))
  | tryApplyChannelDifference (result : Except Exit (MessageBoxes × UpdateAndPeers))

def Call.produced : Call → Option UpdateAndPeers
  | .processUpdates _ result => result.toOption.map Prod.snd
  | .processClosed result => result.toOption.map Prod.snd
  | .takeReleasedUpdates result => result.toOption.bind Prod.snd
  | .tryApplyDifference result => result.toOption.map Prod.snd
  | .tryApplyChannelDifference result => result.toOption.map Prod.snd

/-- The payload of the channel that is processed. -/
def Call.payload : Call → Option UpdatesLike
  | .processUpdates updates _ => some updates
  | _ => none

variable (provesLogin : UpdatesLike → Bool)

/-- The calls of the start of a round. -/
def startCalls (r : UpdatesReceiver) (generation : Nat) (now : Instant) : List Call :=
  (if generation ≠ r.homeFailureGeneration then
    [.processClosed (r.messageBox.processUpdates .connectionClosed now)] else []) ++
  match r.noticeFailure provesLogin generation now with
  | some r => [.takeReleasedUpdates (r.messageBox.takeReleasedUpdates now)]
  | none => []

/-- The calls of `next` where it is resumed. -/
def callsOf (r : UpdatesReceiver) (now : Instant) : Phase → Action → List Call
  | .idle, .start generation => r.startCalls provesLogin generation now
  | .probing, .live (some updates) => [.processUpdates updates (r.messageBox.processUpdates updates now)]
  | .batching _ _, .live (some updates) =>
    [.processUpdates updates (r.messageBox.processUpdates updates now)]
  | .gettingDifference _, .difference (.ok response) =>
    [.tryApplyDifference (r.messageBox.tryApplyDifference response now)]
  | .gettingChannelDifference _, .channelDifference (.ok response) =>
    [.tryApplyChannelDifference (r.messageBox.tryApplyChannelDifference response now)]
  | .waiting _, .received updates =>
    [.processUpdates updates (r.messageBox.processUpdates updates now)]
  | _, _ => []

/-- The payload that is taken out of the channel. -/
def Action.taken : Action → Option UpdatesLike
  | .live payload => payload
  | .received updates => some updates
  | _ => none

/-- The batches that calls add to the queue. -/
def queuedOf (calls : List Call) : List UpdateAndPeers :=
  (calls.filterMap Call.produced).filter UpdateAndPeers.isQueued

def batchOf : Option Returned → List UpdateAndPeers
  | some (.ok batch) => [batch]
  | _ => []

/-- The batches that are held before are held after, but for one that is returned. -/
def Holds (r : UpdatesReceiver) (resumed : Resumed) : Prop :=
  batchOf resumed.2.2 ++ resumed.1.buffer = r.buffer

variable {provesLogin} {r r' : UpdatesReceiver} {now : Instant} {phase : Phase} {resumed : Resumed}
  {error : InvocationError}

theorem Holds.goTo (h : r'.buffer = r.buffer) : Holds r (r'.goTo phase) := h

theorem Holds.looped (h : r'.buffer = r.buffer) : Holds r r'.loop := h

theorem Holds.failed (h : r'.buffer = r.buffer) : Holds r (r'.fail error) := h

theorem Holds.congr (h : Holds r' resumed) (hb : r'.buffer = r.buffer) : Holds r resumed := h.trans hb

theorem extendUpdateQueue_buffer (r : UpdatesReceiver) (batch : UpdateAndPeers) :
    (r.extendUpdateQueue batch).buffer = r.buffer ++ [batch].filter UpdateAndPeers.isQueued := by
  unfold extendUpdateQueue
  split
  next h =>
    have hqueued : batch.isQueued = true := decide_eq_true h
    rw [List.filter_cons_of_pos hqueued]
    rfl
  next h =>
    have hnot : ¬batch.isQueued = true := fun hqueued => h (of_decide_eq_true hqueued)
    rw [List.filter_cons_of_neg hnot]
    exact (List.append_nil _).symm

theorem processSocketUpdates_buffer {updates : UpdatesLike}
    (h : r.processSocketUpdates provesLogin updates now = some r') :
    r'.buffer = r.buffer ++ queuedOf
      [.processUpdates updates (r.messageBox.processUpdates updates now)] := by
  unfold processSocketUpdates at h
  simp only at h
  cases hrun : r.messageBox.processUpdates updates now with
  | ok processed =>
    obtain ⟨boxes, batch⟩ := processed
    rw [hrun] at h
    cases h
    exact extendUpdateQueue_buffer _ _
  | error exit =>
    rw [hrun] at h
    cases exit with
    | gap boxes =>
      cases h
      exact (List.append_nil _).symm
    | panic reason => cases h

theorem takeReleasedUpdates_buffer (h : r.takeReleasedUpdates now = some r') :
    r'.buffer = r.buffer ++ queuedOf
      [.takeReleasedUpdates (r.messageBox.takeReleasedUpdates now)] := by
  unfold takeReleasedUpdates at h
  cases hrun : r.messageBox.takeReleasedUpdates now with
  | ok released =>
    obtain ⟨boxes, batch⟩ := released
    rw [hrun] at h
    cases batch with
    | some batch =>
      cases h
      exact extendUpdateQueue_buffer _ _
    | none =>
      cases h
      exact (List.append_nil _).symm
  | error exit =>
    rw [hrun] at h
    cases h

theorem popOr_holds {next : Option Resumed} (hnext : next = some resumed → Holds r resumed)
    (h : r.popOr next = some resumed) : Holds r resumed := by
  unfold popOr at h
  split at h
  next update rest hbuffer =>
    cases h
    exact hbuffer.symm
  next => exact hnext h

theorem start_buffer {generation : Nat} (h : r.start provesLogin generation now = some resumed) :
    batchOf resumed.2.2 ++ resumed.1.buffer =
      r.buffer ++ queuedOf (r.startCalls provesLogin generation now) := by
  obtain ⟨r1, h1, h⟩ := Option.bind_eq_some_iff.mp h
  obtain ⟨r2, h2, h⟩ := Option.bind_eq_some_iff.mp h
  have hholds : Holds r2 resumed := popOr_holds (fun hnext => by cases hnext; rfl) h
  have hreleased := takeReleasedUpdates_buffer h2
  rw [startCalls, h1, queuedOf, List.filterMap_append, List.filter_append, ← List.append_assoc]
  refine hholds.trans (hreleased.trans (congrArg (· ++ _) ?_))
  unfold noticeFailure at h1
  split
  next hne =>
    rw [if_pos hne] at h1
    obtain ⟨r0, h0, rfl⟩ := Option.map_eq_some_iff.mp h1
    exact processSocketUpdates_buffer h0
  next heq =>
    rw [if_neg heq] at h1
    cases h1
    exact (List.append_nil _).symm

theorem checkSelf_holds (h : r.checkSelf now = some resumed) : Holds r resumed := by
  obtain ⟨channel, -, h⟩ := Option.bind_eq_some_iff.mp h
  simp only at h
  split at h
  next =>
    cases h
    exact .goTo rfl
  next =>
    cases h
    exact .goTo rfl

theorem probe_buffer {received : Option UpdatesLike}
    (h : r.probe provesLogin received now = some resumed) :
    batchOf resumed.2.2 ++ resumed.1.buffer =
      r.buffer ++ queuedOf (r.callsOf provesLogin now .probing (.live received)) := by
  unfold probe at h
  cases received with
  | some updates =>
    simp only at h
    split at h
    next =>
      obtain ⟨r1, h1, h⟩ := Option.bind_eq_some_iff.mp h
      have hholds : Holds r1 resumed := popOr_holds checkSelf_holds h
      exact hholds.trans (processSocketUpdates_buffer h1)
    next => cases h
  | none => exact (checkSelf_holds h).trans (List.append_nil _).symm

theorem sample_holds (r : UpdatesReceiver) (needsAuthorization : Bool) (now : Instant) :
    Holds r (r.sample needsAuthorization now) := by
  simp only [sample]
  split
  next => exact .goTo rfl
  next => exact .goTo rfl

theorem pauseRecoveryAfter_buffer (r : UpdatesReceiver) (error : InvocationError) (now : Instant) :
    (r.pauseRecoveryAfter error now).buffer = r.buffer := by
  unfold pauseRecoveryAfter
  cases error.retryAfter <;> rfl

theorem stateReply_holds (r : UpdatesReceiver) (needsAuthorization : Bool)
    (reply : Except InvocationError ServerState) (now : Instant) :
    Holds r (r.stateReply needsAuthorization reply now) := by
  unfold stateReply
  split
  next =>
    split
    next => exact .failed rfl
    next => exact .goTo rfl
  next error =>
    split
    next => exact .looped rfl
    next => exact .failed (pauseRecoveryAfter_buffer _ error now)

theorem stateStored_holds {needsAuthorization : Bool} {state : ServerState}
    {answer : Except StorageError Unit}
    (h : r.stateStored needsAuthorization state answer now = some resumed) : Holds r resumed := by
  unfold stateStored at h
  split at h
  next =>
    cases h
    exact .failed rfl
  next =>
    obtain ⟨boxes, -, h⟩ := Option.bind_eq_some_iff.mp h
    cases h
    exact .goTo rfl

theorem request_holds (r : UpdatesReceiver) (difference : Option GetDifference)
    (channel : Option ChannelRequest) (otherwise : Phase) :
    Holds r (r.request difference channel otherwise) := by
  unfold request
  split
  next => exact .goTo rfl
  next =>
    split
    next => exact .goTo rfl
    next => exact .goTo rfl
  next => exact .goTo rfl
  next => exact .goTo rfl

theorem prepare_holds (r : UpdatesReceiver) (difference : Option GetDifference)
    (channel : GetChannelDifference) (isBot : Bool) (now : Instant) :
    Holds r (r.prepare difference channel isBot now) := by
  unfold prepare
  split
  next => exact .goTo rfl
  next => exact .failed (pauseRecoveryAfter_buffer r .deserialize now)

theorem takeLive_buffer {needsAuthorization paused : Bool} {received : Option UpdatesLike}
    (h : r.takeLive provesLogin paused received now = some r') :
    r'.buffer = r.buffer ++
      queuedOf (r.callsOf provesLogin now (.batching needsAuthorization paused) (.live received)) := by
  obtain ⟨channel, -, h⟩ := Option.bind_eq_some_iff.mp h
  cases received with
  | some updates =>
    simp only at h
    split at h
    next => exact processSocketUpdates_buffer h
    next => cases h
  | none =>
    cases h
    exact (List.append_nil _).symm

theorem batch_buffer {needsAuthorization paused : Bool} {received : Option UpdatesLike}
    (h : r.batch provesLogin needsAuthorization paused received now = some resumed) :
    batchOf resumed.2.2 ++ resumed.1.buffer = r.buffer ++
      queuedOf (r.callsOf provesLogin now (.batching needsAuthorization paused) (.live received)) := by
  obtain ⟨r1, h1, h⟩ := Option.bind_eq_some_iff.mp h
  have hholds : Holds r1 resumed := by
    refine popOr_holds (fun hnext => ?_) h
    obtain ⟨channel, -, hnext⟩ := Option.bind_eq_some_iff.mp hnext
    simp only at hnext
    split at hnext
    next =>
      split at hnext
      next =>
        cases hnext
        exact (prepare_holds _ _ _ _ _).congr rfl
      next =>
        cases hnext
        exact .goTo rfl
      next =>
        cases hnext
        exact (request_holds _ _ _ _).congr rfl
    next =>
      cases hnext
      exact .goTo rfl
  exact hholds.trans (takeLive_buffer h1)

theorem identified_holds (r : UpdatesReceiver) (difference : Option GetDifference)
    (channel : GetChannelDifference) (answer : Except StorageError (Option PeerInfo))
    (now : Instant) : Holds r (r.identified difference channel answer now) := by
  unfold identified
  split
  next => exact .failed rfl
  next => exact (prepare_holds _ _ _ _ _).congr rfl
  next => exact (prepare_holds _ _ _ _ _).congr rfl

theorem prepared_holds {difference : Option GetDifference} {channel : GetChannelDifference}
    {peer : PeerId} {isBot : Bool} {answer : Except StorageError (Option PeerInfo)}
    (h : r.prepared difference channel peer isBot answer now = some resumed) : Holds r resumed := by
  unfold prepared at h
  split at h
  next =>
    cases h
    exact .failed (pauseRecoveryAfter_buffer r .other now)
  next info =>
    split at h
    next => cases h
    next =>
      split at h
      next =>
        obtain ⟨boxes, -, h⟩ := Option.bind_eq_some_iff.mp h
        cases h
        exact (request_holds _ _ _ _).congr rfl
      next =>
        obtain ⟨⟨boxes, exhausted⟩, -, h⟩ := Option.bind_eq_some_iff.mp h
        simp only at h
        split at h
        next =>
          cases h
          exact (request_holds _ _ _ _).congr rfl
        next =>
          obtain ⟨boxes', -, h⟩ := Option.bind_eq_some_iff.mp h
          cases h
          exact .looped rfl

theorem accountRecoveryFailed_holds (h : r.accountRecoveryFailed error now = some resumed) :
    Holds r resumed := by
  unfold accountRecoveryFailed at h
  split at h
  next =>
    cases h
    exact .failed (pauseRecoveryAfter_buffer r error now)
  next =>
    simp only at h
    split at h
    next =>
      obtain ⟨boxes, -, h⟩ := Option.bind_eq_some_iff.mp h
      cases h
      exact .failed rfl
    next =>
      cases h
      exact .failed rfl

theorem endChannelDifference_buffer {reason : PrematureEndReason}
    (h : r.endChannelDifference reason now = some r') : r'.buffer = r.buffer := by
  obtain ⟨boxes, -, h⟩ := Option.bind_eq_some_iff.mp h
  cases h
  rfl

theorem channelDifferenceUnreadable_holds {request : ChannelRequest}
    (h : r.channelDifferenceUnreadable request error now = some resumed) : Holds r resumed := by
  obtain ⟨r1, h1, h⟩ := Option.bind_eq_some_iff.mp h
  cases h
  have hbuffer : r1.buffer = r.buffer := (endChannelDifference_buffer h1).trans rfl
  exact .failed hbuffer

theorem differenceReply_buffer {request : GetDifference} {reply : Except InvocationError Difference}
    (h : r.differenceReply reply now = some resumed) :
    batchOf resumed.2.2 ++ resumed.1.buffer = r.buffer ++
      queuedOf (r.callsOf provesLogin now (.gettingDifference request) (.difference reply)) := by
  cases reply with
  | error e => exact (accountRecoveryFailed_holds h).trans (List.append_nil _).symm
  | ok response =>
    simp only [differenceReply] at h
    cases hrun : r.messageBox.tryApplyDifference response now with
    | ok result =>
      obtain ⟨boxes, applied⟩ := result
      rw [hrun] at h
      cases h
      simp only [callsOf, hrun]
      exact extendUpdateQueue_buffer _ _
    | error exit =>
      rw [hrun] at h
      simp only [callsOf, hrun]
      cases exit with
      | gap boxes =>
        have hholds := accountRecoveryFailed_holds h
        exact hholds.trans (List.append_nil _).symm
      | panic reason => cases h

theorem channelDifferenceReply_buffer {request : ChannelRequest}
    {reply : Except InvocationError ChannelDifference}
    (h : r.channelDifferenceReply request reply now = some resumed) :
    batchOf resumed.2.2 ++ resumed.1.buffer = r.buffer ++ queuedOf
      (r.callsOf provesLogin now (.gettingChannelDifference request) (.channelDifference reply)) := by
  have hended : ∀ {r1 : UpdatesReceiver} {reason : PrematureEndReason}, r1.buffer = r.buffer →
      (r1.endChannelDifference reason now).map loop = some resumed → Holds r resumed := by
    intro r1 reason hbuffer hrun
    obtain ⟨r2, h2, rfl⟩ := Option.map_eq_some_iff.mp hrun
    exact .looped ((endChannelDifference_buffer h2).trans hbuffer)
  cases reply with
  | error e =>
    simp only [channelDifferenceReply] at h
    have hbuffer : (if e.isDeserialize = true then { r with preferLive := true }
        else { r with preferLive := true }.setUnreadable (some request.channelId) 0).buffer =
          r.buffer := by
      split <;> rfl
    generalize (if e.isDeserialize = true then { r with preferLive := true }
        else { r with preferLive := true }.setUnreadable (some request.channelId) 0) = r1
      at h hbuffer
    refine Eq.trans ?_ (List.append_nil _).symm
    show Holds r resumed
    split at h
    next =>
      cases h
      exact .failed ((pauseRecoveryAfter_buffer r1 e now).trans hbuffer)
    next =>
      split at h
      next => exact hended hbuffer h
      next =>
        split at h
        next => exact hended hbuffer h
        next =>
          split at h
          next => exact (channelDifferenceUnreadable_holds h).congr hbuffer
          next =>
            split at h
            next => exact hended hbuffer h
            next =>
              cases h
              exact .failed ((pauseRecoveryAfter_buffer r1 e now).trans hbuffer)
  | ok response =>
    simp only [channelDifferenceReply] at h
    cases hrun : r.messageBox.tryApplyChannelDifference response now with
    | ok result =>
      obtain ⟨boxes, applied⟩ := result
      rw [hrun] at h
      cases h
      simp only [callsOf, hrun]
      refine (extendUpdateQueue_buffer _ applied).trans ?_
      split <;> rfl
    | error exit =>
      rw [hrun] at h
      simp only [callsOf, hrun]
      cases exit with
      | gap boxes =>
        have hholds := channelDifferenceUnreadable_holds h
        exact hholds.trans (List.append_nil _).symm
      | panic reason => cases h

/-- Where `next` is resumed, the batch that it returns and those that it holds then are those that
it has held and those that are produced, in order. -/
theorem resume_buffer {a : Action} (h : r.resume provesLogin now phase a = some resumed) :
    batchOf resumed.2.2 ++ resumed.1.buffer =
      r.buffer ++ queuedOf (r.callsOf provesLogin now phase a) := by
  have hnone : ∀ {resumed : Resumed}, Holds r resumed →
      batchOf resumed.2.2 ++ resumed.1.buffer = r.buffer ++ queuedOf [] :=
    fun hholds => hholds.trans (List.append_nil _).symm
  cases phase with
  | idle =>
    cases a with
    | start generation => exact start_buffer h
    | _ => cases h
  | probing =>
    cases a with
    | live received => exact probe_buffer h
    | cancel =>
      cases h
      exact hnone (.looped rfl)
    | _ => cases h
  | checkingSelf needsAuthorization =>
    cases a with
    | self answer =>
      simp only [resume] at h
      split at h
      next =>
        cases h
        exact hnone (.failed rfl)
      next =>
        cases h
        exact hnone (.goTo rfl)
      next =>
        cases h
        exact hnone (.goTo rfl)
    | cancel =>
      cases h
      exact hnone (.looped rfl)
    | _ => cases h
  | sampling needsAuthorization =>
    cases a with
    | sample =>
      cases h
      exact hnone (sample_holds r needsAuthorization now)
    | cancel =>
      cases h
      exact hnone (.looped rfl)
    | _ => cases h
  | gettingState needsAuthorization =>
    cases a with
    | state reply =>
      cases h
      exact hnone (stateReply_holds r needsAuthorization reply now)
    | cancel =>
      cases h
      exact hnone (.looped rfl)
    | _ => cases h
  | storingState needsAuthorization state saved =>
    cases a with
    | stored answer => exact hnone (stateStored_holds h)
    | cancel =>
      cases h
      exact hnone (.looped rfl)
    | _ => cases h
  | batching needsAuthorization paused =>
    cases a with
    | live received => exact batch_buffer h
    | cancel =>
      cases h
      exact hnone (.looped rfl)
    | _ => cases h
  | identifying difference channel =>
    cases a with
    | self answer =>
      cases h
      exact hnone (identified_holds r difference channel answer now)
    | cancel =>
      cases h
      exact hnone (.looped rfl)
    | _ => cases h
  | preparing difference channel peer isBot =>
    cases a with
    | peer answer => exact hnone (prepared_holds h)
    | cancel =>
      cases h
      exact hnone (.looped rfl)
    | _ => cases h
  | gettingDifference request =>
    cases a with
    | difference reply => exact differenceReply_buffer h
    | cancel =>
      cases h
      exact hnone (.looped rfl)
    | _ => cases h
  | gettingChannelDifference request =>
    cases a with
    | channelDifference reply => exact channelDifferenceReply_buffer h
    | cancel =>
      cases h
      exact hnone (.looped rfl)
    | _ => cases h
  | waiting deadline =>
    cases a with
    | received updates =>
      obtain ⟨r', h', rfl⟩ := Option.map_eq_some_iff.mp h
      exact processSocketUpdates_buffer h'
    | closed =>
      cases h
      exact hnone (.failed rfl)
    | timeout =>
      simp only [resume, Option.ite_none_right_eq_some] at h
      cases h.2
      exact hnone (.looped rfl)
    | homeFailure =>
      cases h
      exact hnone (.looped rfl)
    | cancel =>
      cases h
      exact hnone (.looped rfl)
    | _ => cases h

theorem startCalls_payload (r : UpdatesReceiver) (generation : Nat) (now : Instant) :
    (r.startCalls provesLogin generation now).filterMap Call.payload = [] := by
  unfold startCalls
  split
  next => split <;> rfl
  next => split <;> rfl

/-- Whatever is taken out of the channel is processed, once. -/
theorem resume_payloads {a : Action} (h : r.resume provesLogin now phase a = some resumed) :
    (r.callsOf provesLogin now phase a).filterMap Call.payload = a.taken.toList := by
  cases a with
  | start generation =>
    cases phase with
    | idle => exact startCalls_payload r generation now
    | _ => cases h
  | live payload =>
    cases phase with
    | probing => cases payload <;> rfl
    | batching => cases payload <;> rfl
    | _ => cases h
  | received updates =>
    cases phase with
    | waiting => rfl
    | _ => cases h
  | difference reply =>
    cases phase with
    | gettingDifference => cases reply <;> rfl
    | _ => cases h
  | channelDifference reply =>
    cases phase with
    | gettingChannelDifference => cases reply <;> rfl
    | _ => cases h
  | _ => cases phase <;> rfl

end UpdatesReceiver

end Grammers
