import Grammers.BoxReach
import Grammers.MemoryStorage
import Grammers.RpcError

namespace Grammers

open Rpc (InvocationError RpcError)

namespace Rpc

/-- Whether the name is the given one, or has it before or after an asterisk. -/
def RpcError.is (error : RpcError) (name : String) : Bool :=
  let name : Text := name.toList
  if name.getLast? = some '*' then name.dropLast.isPrefixOf error.name
  else if name.head? = some '*' then name.tail.isSuffixOf error.name
  else error.name == name

def InvocationError.is (error : InvocationError) (name : String) : Bool :=
  match error.rootCause with
  | .rpc e => e.is name
  | _ => false

def InvocationError.hasCode (error : InvocationError) (codes : List Int32) : Bool :=
  match error.rootCause with
  | .rpc e => codes.contains e.code
  | _ => false

def InvocationError.isDeserialize (error : InvocationError) : Bool :=
  match error.rootCause with
  | .deserialize => true
  | _ => false

end Rpc

/-- A channel's identifier, in one of the two ranges that channels have. -/
def PeerId.channel (id : Int) : Option PeerId :=
  if 1 ≤ id ∧ id ≤ 997852516352 ∨ 1002147483649 ≤ id ∧ id ≤ 3000000000000 then
    some (.channelUnchecked id)
  else none

def botChannelDiffLimit : Nat := 100000

def userChannelDiffLimit : Nat := 100

def recoveryRetryDelay : Duration := fromSecs 1

def recoveryRetryDelayLimit : Duration := fromSecs 60

def maxUnreadableDifferences : Nat := 30

inductive Authorization where
  | unknown
  | inferred
  | confirmed
  | rejected
  deriving DecidableEq

def Authorization.canRecover (a : Authorization) : Bool := a = .inferred ∨ a = .confirmed

/-- A channel difference as it is requested, with the hash that gives access. -/
structure ChannelRequest where
  channelId : Int
  pts : Int32
  accessHash : Int
  limit : Nat
  deriving DecidableEq

structure UpdatesReceiver where
  messageBox : MessageBoxes
  buffer : List UpdateAndPeers
  shouldGetState : Bool
  homeFailureGeneration : Nat
  preferChannel : Bool
  preferLive : Bool
  authorization : Authorization
  isBot : Option Bool
  nextSelfCheck : Instant
  recoveryPausedUntil : Instant
  recoveryFailures : Nat
  /-- By channel; `none` is the account sequence. What is not in the map has no failures. -/
  unreadableDifferences : Option Int → Nat

namespace UpdatesReceiver

/-- A receiver of the given message box, which has done nothing yet. -/
def create (messageBox : MessageBoxes) (now : Instant) : UpdatesReceiver where
  messageBox := messageBox
  buffer := []
  shouldGetState := false
  homeFailureGeneration := 0
  preferChannel := false
  preferLive := true
  authorization := .unknown
  isBot := none
  nextSelfCheck := now
  recoveryPausedUntil := now
  recoveryFailures := 0
  unreadableDifferences := fun _ => 0

/-- Where `next` is: at the start of its loop, or in it at what it waits for or reads the clock for,
with the values of the round that are still in use. -/
inductive Phase where
  | idle
  | probing
  | checkingSelf (needsAuthorization : Bool)
  | sampling (needsAuthorization : Bool)
  | gettingState (needsAuthorization : Bool)
  | storingState (needsAuthorization : Bool) (state : ServerState) (saved : UpdatesState)
  | batching (needsAuthorization paused : Bool)
  | identifying (difference : Option GetDifference) (channel : GetChannelDifference)
  | preparing (difference : Option GetDifference) (channel : GetChannelDifference)
      (peer : PeerId) (isBot : Bool)
  | gettingDifference (request : GetDifference)
  | gettingChannelDifference (request : ChannelRequest)
  | waiting (deadline : Instant)

inductive StorageError where
  | failed

/-- What `next` is resumed with; a request is answered, or fails before or after it is sent. -/
inductive Action where
  | start (generation : Nat)
  | live (received : Option UpdatesLike)
  | self (answer : Except StorageError (Option PeerInfo))
  | sample
  | state (reply : Except InvocationError ServerState)
  | stored (answer : Except StorageError Unit)
  | peer (answer : Except StorageError (Option PeerInfo))
  | difference (reply : Except InvocationError Difference)
  | channelDifference (reply : Except InvocationError ChannelDifference)
  | received (updates : UpdatesLike)
  | closed
  | timeout
  | homeFailure
  | cancel

abbrev Returned : Type := Except InvocationError UpdateAndPeers

/-- The receiver, where `next` is then, and what it has returned if it has ended. -/
abbrev Resumed : Type := UpdatesReceiver × Phase × Option Returned

def loop (r : UpdatesReceiver) : Resumed := (r, .idle, none)

def fail (r : UpdatesReceiver) (error : InvocationError) : Resumed := (r, .idle, some (.error error))

def goTo (r : UpdatesReceiver) (phase : Phase) : Resumed := (r, phase, none)

/-- The first batch of the buffer is returned, or else `next` goes on. -/
def popOr (r : UpdatesReceiver) (resumed : Option Resumed) : Option Resumed :=
  match r.buffer with
  | update :: rest => some ({ r with buffer := rest }, .idle, some (.ok update))
  | [] => resumed

def extendUpdateQueue (r : UpdatesReceiver) (result : UpdateAndPeers) : UpdatesReceiver :=
  if result.updates ≠ [] ∨ result.users ≠ [] ∨ result.chats ≠ [] then
    { r with buffer := r.buffer ++ [result] }
  else r

def processSocketUpdates (provesLogin : UpdatesLike → Bool) (r : UpdatesReceiver)
    (updates : UpdatesLike) (now : Instant) : Option UpdatesReceiver :=
  let r := { r with
    preferLive := false
    authorization := if r.authorization = Authorization.unknown ∧ provesLogin updates = true then .inferred
      else r.authorization }
  match r.messageBox.processUpdates updates now with
  | .ok (boxes, result) => some ({ r with messageBox := boxes }.extendUpdateQueue result)
  | .error (.gap boxes) => some { r with messageBox := boxes }
  | .error (.panic _) => none

def takeReleasedUpdates (r : UpdatesReceiver) (now : Instant) : Option UpdatesReceiver :=
  match r.messageBox.takeReleasedUpdates now with
  | .ok (boxes, some result) => some ({ r with messageBox := boxes }.extendUpdateQueue result)
  | .ok (boxes, none) => some { r with messageBox := boxes }
  | .error _ => none

/-- What the message box says of the next channel to recover; none where it panics. -/
def channelDifference (r : UpdatesReceiver) : Option (Option GetChannelDifference) :=
  r.messageBox.getChannelDifference.toOption

def pauseRecovery (r : UpdatesReceiver) (now : Instant) : UpdatesReceiver :=
  { r with
    recoveryFailures := min (r.recoveryFailures + 1) (2 ^ 32 - 1)
    recoveryPausedUntil := now +
      min (recoveryRetryDelay * 2 ^ min r.recoveryFailures 6) recoveryRetryDelayLimit }

/-- The pause after a failed request, no shorter than a wait that was asked for. -/
def pauseRecoveryAfter (r : UpdatesReceiver) (error : InvocationError) (now : Instant) :
    UpdatesReceiver :=
  let r := r.pauseRecovery now
  match error.retryAfter with
  | some wait => { r with recoveryPausedUntil := max r.recoveryPausedUntil (now + wait) }
  | none => r

def pauseRecoveryForUnreadableReply (r : UpdatesReceiver) (now : Instant) : UpdatesReceiver :=
  { r with recoveryPausedUntil := now + recoveryRetryDelay }

def setUnreadable (r : UpdatesReceiver) (sequence : Option Int) (count : Nat) : UpdatesReceiver :=
  { r with unreadableDifferences := Function.update r.unreadableDifferences sequence count }

/-- One more unreadable difference of a sequence, and whether its backlog is abandoned for it. -/
def differenceUnreadable (r : UpdatesReceiver) (sequence : Option Int) : UpdatesReceiver × Bool :=
  let count := r.unreadableDifferences sequence + 1
  let abandon := decide (maxUnreadableDifferences ≤ count)
  (r.setUnreadable sequence (if abandon then 0 else count), abandon)

def accountRecoveryFailed (r : UpdatesReceiver) (error : InvocationError) (now : Instant) :
    Option Resumed :=
  if !error.isDeserialize then
    some (((r.pauseRecoveryAfter error now).setUnreadable none 0).fail error)
  else
    let (r, abandon) := (r.pauseRecoveryForUnreadableReply now).differenceUnreadable none
    if abandon then do
      let boxes ← (r.messageBox.discardAccountState now).toOption
      some ({ r with messageBox := boxes }.fail error)
    else some (r.fail error)

def endChannelDifference (r : UpdatesReceiver) (reason : PrematureEndReason) (now : Instant) :
    Option UpdatesReceiver := do
  let boxes ← (r.messageBox.endChannelDifference reason now).toOption
  some { r with messageBox := boxes }

def channelDifferenceUnreadable (r : UpdatesReceiver) (request : ChannelRequest)
    (error : InvocationError) (now : Instant) : Option Resumed := do
  let (r, abandon) := r.differenceUnreadable (some request.channelId)
  let r ← r.endChannelDifference (if abandon then .banned else .temporaryServerIssues) now
  let r := { r with messageBox := r.messageBox.retryChannelWithoutDelay request.channelId now }
  some ((r.pauseRecoveryForUnreadableReply now).fail error)

variable (provesLogin : UpdatesLike → Bool)

/-- A home connection that failed since it was last looked at has lost updates. -/
def noticeFailure (r : UpdatesReceiver) (generation : Nat) (now : Instant) :
    Option UpdatesReceiver :=
  if generation ≠ r.homeFailureGeneration then
    (r.processSocketUpdates provesLogin .connectionClosed now).map fun r =>
      { r with homeFailureGeneration := generation }
  else some r

/-- The start of a round: what is ready to be returned, if there is something. -/
def start (r : UpdatesReceiver) (generation : Nat) (now : Instant) : Option Resumed := do
  let r ← r.noticeFailure provesLogin generation now
  let r ← r.takeReleasedUpdates now
  r.popOr (some (r.goTo .probing))

/-- The deadlines, and whether it has to be known who is logged in. -/
def checkSelf (r : UpdatesReceiver) (now : Instant) : Option Resumed := do
  let r := { r with messageBox := (r.messageBox.checkDeadlines now).2 }
  let channel ← r.channelDifference
  let needsAuthorization := !r.messageBox.hasPrimaryState || r.messageBox.getDifference.isSome ||
    channel.isSome
  if !r.authorization.canRecover && needsAuthorization && decide (r.nextSelfCheck ≤ now) then
    some ({ r with nextSelfCheck := now + fromSecs 1 }.goTo (.checkingSelf needsAuthorization))
  else some (r.goTo (.sampling needsAuthorization))

/-- Before that, one payload of the socket may be what shows it. -/
def probe (r : UpdatesReceiver) (received : Option UpdatesLike) (now : Instant) : Option Resumed :=
  match received with
  | some updates =>
    if !r.authorization.canRecover && !r.shouldGetState && r.preferLive then do
      let r ← r.processSocketUpdates provesLogin updates now
      r.popOr (r.checkSelf now)
    else none
  | none => r.checkSelf now

/-- Whether recovery is paused is read off the clock once in a round. -/
def sample (r : UpdatesReceiver) (needsAuthorization : Bool) (now : Instant) : Resumed :=
  let r := { r with
    shouldGetState := r.shouldGetState || r.authorization.canRecover && !r.messageBox.hasPrimaryState }
  let paused := decide (now < r.recoveryPausedUntil)
  if r.shouldGetState && !paused then r.goTo (.gettingState needsAuthorization)
  else r.goTo (.batching needsAuthorization paused)

def stateReply (r : UpdatesReceiver) (needsAuthorization : Bool)
    (reply : Except InvocationError ServerState) (now : Instant) : Resumed :=
  match reply with
  | .ok state =>
    if state.pts < 0 ∨ state.qts < 0 ∨ state.date < 0 ∨ state.seq < 0 then
      (r.pauseRecovery now).fail .deserialize
    else r.goTo (.storingState needsAuthorization state
      ⟨state.pts, state.qts, state.date, state.seq, r.messageBox.sessionState.channels⟩)
  | .error error =>
    if r.authorization = Authorization.inferred ∧ error.hasCode [401] = true then
      { r with
        authorization := .rejected
        shouldGetState := false
        nextSelfCheck := now + fromSecs 1 }.loop
    else ({ r with shouldGetState := true }.pauseRecoveryAfter error now).fail error

def stateStored (r : UpdatesReceiver) (needsAuthorization : Bool) (state : ServerState)
    (answer : Except StorageError Unit) (now : Instant) : Option Resumed :=
  match answer with
  | .error _ => some ((r.pauseRecovery now).fail .other)
  | .ok () => do
    let boxes ← (r.messageBox.discardAccountState now).toOption
    some ({ r with
      messageBox := boxes.setState state now
      authorization := .confirmed
      recoveryFailures := 0
      shouldGetState := false }.goTo (.batching needsAuthorization false))

/-- The request that is made next, if there is one. -/
def request (r : UpdatesReceiver) (difference : Option GetDifference)
    (channel : Option ChannelRequest) (otherwise : Phase) : Resumed :=
  match difference, channel with
  | some request, none => { r with preferChannel := true }.goTo (.gettingDifference request)
  | some request, some channel =>
    if !r.preferChannel then { r with preferChannel := true }.goTo (.gettingDifference request)
    else { r with preferChannel := false }.goTo (.gettingChannelDifference channel)
  | none, some channel => { r with preferChannel := false }.goTo (.gettingChannelDifference channel)
  | none, none => r.goTo otherwise

/-- The start of `prepare_channel_difference`: which peer the session is asked for. -/
def prepare (r : UpdatesReceiver) (difference : Option GetDifference)
    (channel : GetChannelDifference) (isBot : Bool) (now : Instant) : Resumed :=
  match PeerId.channel channel.channelId with
  | some peer => r.goTo (.preparing difference channel peer isBot)
  | none => (r.pauseRecoveryAfter .deserialize now).fail .deserialize

/-- A batch of the socket, unless recovery is ready and it is its turn. -/
def takeLive (r : UpdatesReceiver) (paused : Bool) (received : Option UpdatesLike) (now : Instant) :
    Option UpdatesReceiver := do
  let channel ← r.channelDifference
  let ready := r.authorization.canRecover && !paused &&
    (r.messageBox.getDifference.isSome || channel.isSome)
  match received with
  | some updates =>
    if r.preferLive || !ready then r.processSocketUpdates provesLogin updates now else none
  | none => some r

/-- A live batch first, unless recovery is due; then what is to be recovered. -/
def batch (r : UpdatesReceiver) (needsAuthorization paused : Bool) (received : Option UpdatesLike)
    (now : Instant) : Option Resumed := do
  let r ← r.takeLive provesLogin paused received now
  r.popOr do
    let (deadline, boxes) := r.messageBox.checkDeadlines now
    let r := { r with messageBox := boxes }
    let canRecover := r.authorization.canRecover
    let channel ← r.channelDifference
    if canRecover && !paused then
      match channel, r.isBot with
      | some channel, some isBot => some (r.prepare r.messageBox.getDifference channel isBot now)
      | some channel, none => some (r.goTo (.identifying r.messageBox.getDifference channel))
      | none, _ => some (r.request r.messageBox.getDifference none (.waiting deadline))
    else some (r.goTo (.waiting (if !canRecover && needsAuthorization then r.nextSelfCheck
      else if paused then r.recoveryPausedUntil else deadline)))

def identified (r : UpdatesReceiver) (difference : Option GetDifference)
    (channel : GetChannelDifference) (answer : Except StorageError (Option PeerInfo))
    (now : Instant) : Resumed :=
  match answer with
  | .error _ => (r.pauseRecovery now).fail .other
  | .ok (some (.user _ _ bot _)) =>
    { r with
      authorization := .confirmed
      isBot := some (bot.getD false) }.prepare difference channel (bot.getD false) now
  | .ok _ => { r with isBot := some false }.prepare difference channel false now

/-- Whether a bot has no grace left for the channel, and asks without a hash. -/
def exhaustGrace (r : UpdatesReceiver) (isBot : Bool) : Option (MessageBoxes × Bool) :=
  if isBot then r.messageBox.tryExhaustChannelGrace.toOption else some (r.messageBox, false)

/-- The rest of `prepare_channel_difference`; the session answers with the peer it is asked for. -/
def prepared (r : UpdatesReceiver) (difference : Option GetDifference)
    (channel : GetChannelDifference) (peer : PeerId) (isBot : Bool)
    (answer : Except StorageError (Option PeerInfo)) (now : Instant) : Option Resumed :=
  match answer with
  | .error _ => some ((r.pauseRecoveryAfter .other now).fail .other)
  | .ok info =>
    if info.any fun info => info.id ≠ peer then none
    else
      match info with
      | some (.channel id (some hash) _) => do
        let boxes ← r.messageBox.channelDifferenceAccessible.toOption
        some ({ r with messageBox := boxes }.request difference
          (some ⟨id, channel.pts, hash, if isBot then botChannelDiffLimit else userChannelDiffLimit⟩)
          .idle)
      | _ => do
        let (boxes, exhausted) ← r.exhaustGrace isBot
        let r := { r with messageBox := boxes }
        if exhausted then
          some (r.request difference (some ⟨channel.channelId, channel.pts, 0, botChannelDiffLimit⟩)
            .idle)
        else do
          let boxes ← (r.messageBox.deferChannelDifference (fromSecs 1) now).toOption
          some { r with messageBox := boxes, preferLive := true }.loop

def differenceReply (r : UpdatesReceiver) (reply : Except InvocationError Difference)
    (now : Instant) : Option Resumed :=
  match reply with
  | .error error => r.accountRecoveryFailed error now
  | .ok response =>
    let r := { r with preferLive := true }
    match r.messageBox.tryApplyDifference response now with
    | .ok (boxes, applied) =>
      some ({ { r with messageBox := boxes }.setUnreadable none 0 with
        recoveryFailures := 0 }.extendUpdateQueue applied).loop
    | .error (.gap _) => r.accountRecoveryFailed .deserialize now
    | .error (.panic _) => none

/-- Errors that concern more than the channel. -/
def stopsRecovery (error : InvocationError) : Bool :=
  error.is "FLOOD_*" || error.is "SLOWMODE_WAIT*" || error.is "AUTH_KEY_*" ||
    error.is "SESSION_*" || error.is "CONNECTION_*" || error.is "API_ID_*" ||
    error.hasCode [401, 420, 429]

/-- Errors that no retry of the same difference can mend. -/
def endsRecovery (error : InvocationError) : Bool :=
  ["CHANNEL_INVALID", "CHANNEL_PRIVATE", "CHANNEL_PUBLIC_GROUP_NA", "CHAT_WRITE_FORBIDDEN",
    "FROZEN_PARTICIPANT_MISSING", "PERSISTENT_TIMESTAMP_EMPTY", "PERSISTENT_TIMESTAMP_INVALID",
    "USER_BANNED_IN_CHANNEL"].any error.is

def channelDifferenceReply (r : UpdatesReceiver) (request : ChannelRequest)
    (reply : Except InvocationError ChannelDifference) (now : Instant) : Option Resumed :=
  let r := { r with preferLive := true }
  match reply with
  | .error error =>
    let r := if error.isDeserialize then r else r.setUnreadable (some request.channelId) 0
    if stopsRecovery error then some ((r.pauseRecoveryAfter error now).fail error)
    else if error.is "PERSISTENT_TIMESTAMP_OUTDATED" then
      (r.endChannelDifference .temporaryServerIssues now).map loop
    else if endsRecovery error then (r.endChannelDifference .banned now).map loop
    else if error.isDeserialize then r.channelDifferenceUnreadable request error now
    else if error.hasCode [400, 403, 406, 500] then
      (r.endChannelDifference .temporaryServerIssues now).map loop
    else some ((r.pauseRecoveryAfter error now).fail error)
  | .ok response =>
    match r.messageBox.tryApplyChannelDifference response now with
    | .ok (boxes, applied) =>
      let r := { r with messageBox := boxes }.setUnreadable (some request.channelId) 0
      let r := if r.messageBox.getDifference.isNone then { r with recoveryFailures := 0 } else r
      some (r.extendUpdateQueue applied).loop
    | .error (.gap _) => r.channelDifferenceUnreadable request .deserialize now
    | .error (.panic _) => none

/-- `next`, resumed where it is. -/
def resume (r : UpdatesReceiver) (now : Instant) : Phase → Action → Option Resumed
  | .idle, .start generation => r.start provesLogin generation now
  | .probing, .live received => r.probe provesLogin received now
  | .checkingSelf needsAuthorization, .self answer =>
    match answer with
    | .error _ => some (r.fail .other)
    | .ok (some (.user _ _ bot _)) => some ({ r with
        authorization := .confirmed
        isBot := some (bot.getD false) }.goTo (.sampling needsAuthorization))
    | .ok _ => some (r.goTo (.sampling needsAuthorization))
  | .sampling needsAuthorization, .sample => some (r.sample needsAuthorization now)
  | .gettingState needsAuthorization, .state reply =>
    some (r.stateReply needsAuthorization reply now)
  | .storingState needsAuthorization state _, .stored answer =>
    r.stateStored needsAuthorization state answer now
  | .batching needsAuthorization paused, .live received =>
    r.batch provesLogin needsAuthorization paused received now
  | .identifying difference channel, .self answer =>
    some (r.identified difference channel answer now)
  | .preparing difference channel peer isBot, .peer answer =>
    r.prepared difference channel peer isBot answer now
  | .gettingDifference _, .difference reply => r.differenceReply reply now
  | .gettingChannelDifference request, .channelDifference reply =>
    r.channelDifferenceReply request reply now
  | .waiting _, .received updates => (r.processSocketUpdates provesLogin updates now).map loop
  | .waiting _, .closed => some (r.fail .other)
  | .waiting deadline, .timeout => if deadline ≤ now then some r.loop else none
  | .waiting _, .homeFailure => some r.loop
  | .idle, .cancel => none
  | _, .cancel => some r.loop
  | _, _ => none

end UpdatesReceiver

end Grammers
