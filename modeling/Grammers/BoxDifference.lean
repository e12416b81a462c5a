import Grammers.BoxProcess
import Mathlib.Data.Finset.Erase

namespace Grammers

open StableSort

structure GetDifference where
  pts : Int32
  date : Int32
  qts : Int32
  deriving DecidableEq

structure GetChannelDifference where
  channelId : Int
  pts : Int32
  deriving DecidableEq

/-- How long a channel waits after some consecutive temporary rejections: one
second, doubling up to a minute. -/
def channelRetryDelay (failures : Nat) : Duration :=
  min (fromSecs (1 <<< min (failures - 1) 6)) channelRetryDelayLimit

/-- The successor of a `u8` counter that stops at its largest value. -/
def saturatingSucc (failures : Nat) : Nat := min (failures + 1) 255

/-- The loop over a channel's held updates in order: those that directly follow the
position are kept, those before it dropped, and all from the first gap on lie beyond. -/
def retainLoop : Int32 → List Update → List Update → List Update → List Update × List Update
  | _, kept, beyond, [] => (kept, beyond)
  | pts, kept, beyond, update :: updates =>
    match PtsInfo.fromUpdate update with
    | none => retainLoop pts kept beyond updates
    | some info =>
      if ¬beyond.isEmpty then retainLoop pts kept (beyond ++ [update]) updates
      else
        match compare (pts.toInt + info.count.toInt) info.pts.toInt with
        | .eq => retainLoop info.pts (kept ++ [update]) beyond updates
        | .gt => retainLoop pts kept beyond updates
        | .lt => retainLoop pts kept (beyond ++ [update]) updates

def ServerState.isValid (state : ServerState) : Bool :=
  decide (0 ≤ state.pts) && decide (0 ≤ state.qts) && decide (0 ≤ state.date) &&
    decide (0 ≤ state.seq)

/-- The checks on an account difference before it is applied. -/
def Difference.isValid : Difference → Bool
  | .empty date seq => decide (0 ≤ date) && decide (0 ≤ seq)
  | .tooLong pts => decide (0 ≤ pts)
  | .difference parts => parts.state.isValid
  | .slice parts => parts.state.isValid

/-- The checks on the difference of a channel before it is applied. -/
def ChannelDifference.isValid (channelId : Int) : ChannelDifference → Bool
  | .empty _ pts _ => decide (noPts ≤ pts)
  | .difference parts => decide (noPts ≤ parts.pts)
  | .tooLong _ _ dialog _ _ =>
    match dialog with
    | .dialog peer pts => pts.any (noPts ≤ ·) && decide (peer = .channel channelId)
    | _ => false

namespace MessageBoxes

/-- The request that gets the account difference, if one is needed. -/
def getDifference (s : MessageBoxes) : Option GetDifference :=
  if s.isGettingDiff .common ∨ s.isGettingDiff .secondary then
    (s.entry .common).map fun entry =>
      { pts := entry.pts
        date := max s.date 1
        qts := ((s.entry .secondary).map LiveEntry.pts).getD noPts }
  else none

/-- Move the account to the state a difference carries. -/
def beginDifference (s : MessageBoxes) (state : ServerState) (now : Instant) : MessageBoxes :=
  let s := { s with date := state.date, seq := state.seq }
  (s.setPts .common state.pts now).setPts .secondary state.qts now

/-- The well-formed updates of a difference, less those of channels whose own difference
is planned. -/
def differenceUpdates (s : MessageBoxes) (otherUpdates : List Update) : List Update :=
  (retainValidUpdates otherUpdates).filter fun update =>
    match PtsInfo.fromUpdate update with
    | some info => !(info.key.isChannel && s.isGettingDiff info.key)
    | none => true

/-- The messages of a difference, as updates without a position of their own. -/
def differenceMessages (diff : DifferenceParts) : List (Update × State) :=
  let state := diff.state
  let messages := diff.newMessages.map fun message =>
    (Update.newMessage message noPts 0, State.mk state.date state.seq (some (.common state.pts)))
  let encrypted := diff.newEncryptedMessages.map fun message =>
    (Update.newEncryptedMessage message noPts,
      State.mk state.date state.seq (some (.secondary state.qts)))
  messages ++ encrypted

def applyDifferenceType (s : MessageBoxes) (diff : DifferenceParts) (now : Instant) :
    Except Exit (MessageBoxes × UpdateAndPeers) :=
  let s := s.beginDifference diff.state now
  let updates := s.differenceUpdates diff.otherUpdates
  match s.processUpdatesInner (.updates (.updates updates diff.users diff.chats noDate noSeq))
      [.common, .secondary] now with
  | .error (.gap _) => .error (.panic .gapInDifference)
  | .error (.panic reason) => .error (.panic reason)
  | .ok (s, result) => .ok (s, { result with updates := result.updates ++ differenceMessages diff })

/-- Finish the recovery of both account sequences. -/
def endAccount (s : MessageBoxes) (now : Instant) : Except Exit MessageBoxes := do
  let s ← s.tryEndGetDiff .common now
  s.tryEndGetDiff .secondary now

/-- Apply the result of getting the account difference. -/
def applyDifference (s : MessageBoxes) (difference : Difference) (now : Instant) :
    Except Exit (MessageBoxes × UpdateAndPeers) := do
  match difference with
  | .empty date seq =>
    let s ← endAccount { s with date := date, seq := seq } now
    return (s, ⟨[], [], []⟩)
  | .difference parts =>
    let (s, result) ← s.applyDifferenceType parts now
    let s ← s.endAccount now
    return (s, result)
  | .slice parts => s.applyDifferenceType parts now
  | .tooLong pts =>
    let s ← (s.setPts .common pts now).endAccount now
    return (s, ⟨[], [], []⟩)

/-- Apply an account difference after checking the state it carries. -/
def tryApplyDifference (s : MessageBoxes) (difference : Difference) (now : Instant) :
    Except Exit (MessageBoxes × UpdateAndPeers) :=
  if ¬s.isGettingDiff .common ∧ ¬s.isGettingDiff .secondary then .error (.gap s)
  else if ¬difference.isValid then .error (.gap s) else s.applyDifference difference now

/-- The first channel whose difference is ready to be fetched. -/
def channelInDiff (s : MessageBoxes) : Option Int :=
  s.gettingDiffFor.findSome? fun key =>
    match key with
    | .channel id => some id
    | _ => none

/-- The request that gets the difference of the first ready channel. -/
def getChannelDifference (s : MessageBoxes) : Except Exit (Option GetChannelDifference) :=
  match s.channelInDiff with
  | none => .ok none
  | some channelId =>
    match s.entry (.channel channelId) with
    | some entry => .ok (some ⟨channelId, entry.pts⟩)
    | none => .error (.panic .entryWithoutKnownState)

/-- Keep only the channel's held updates that directly follow its position, and
return those beyond it. -/
def retainContiguousHeldUpdates (s : MessageBoxes) (channelId : Int) (pts : Int32) :
    MessageBoxes × List Update :=
  let channel := (s.heldUpdates.filter fun held => held.1 = channelId).map Prod.snd
  let others := s.heldUpdates.filter fun held => held.1 ≠ channelId
  let (kept, beyond) := retainLoop pts [] [] (sortByKey updateSortKey channel)
  ({ s with heldUpdates := others ++ kept.map fun update => (channelId, update) }, beyond)

/-- Space out the channel's next difference until a time, with what lies beyond as its gap. -/
def retryChannelAt (s : MessageBoxes) (key : Key) (failures : Nat) (beyond : List Update)
    (retryAt : Instant) : MessageBoxes :=
  let s := if beyond.isEmpty then s else { s with nextDeadline := min s.nextDeadline retryAt }
  s.updateEntry key fun entry => { entry with
    recoveryFailures := failures
    retryNotBefore := some retryAt
    possibleGap := if beyond.isEmpty then entry.possibleGap else some ⟨retryAt, beyond⟩ }

def scheduleChannelRetry (s : MessageBoxes) (key : Key) (failures : Nat) (beyond : List Update)
    (now : Instant) : MessageBoxes :=
  s.retryChannelAt key failures beyond (now + channelRetryDelay failures)

/-- Move a queued key behind every other one. -/
def rotate (s : MessageBoxes) (key : Key) : MessageBoxes :=
  if key ∈ s.gettingDiffFor then
    { s with gettingDiffFor := s.gettingDiffFor.erase key ++ [key] }
  else s

/-- What a channel difference does before it is adapted: the channel has answered. -/
def clearRecovery (s : MessageBoxes) (channelId : Int) : MessageBoxes :=
  let s := { s with exhaustedChannels := s.exhaustedChannels.erase channelId }
  s.updateEntry (.channel channelId) fun entry => { entry with
    possibleGap := none
    recoveryDeferred := false
    recoveryDeferrals := 0
    recoveryFailures := 0
    retryNotBefore := none }

/-- What a channel difference does before its updates: a final one ends the recovery. -/
def beginChannelDifference (s : MessageBoxes) (channelId : Int) (diff : ChannelDifferenceParts)
    (now : Instant) : Except Exit MessageBoxes := do
  let key := Key.channel channelId
  let s := s.clearRecovery channelId
  let s ← (if diff.isFinal then s.tryEndGetDiff key now else .ok s)
  return s.setPts key diff.pts now

/-- What a channel difference does after its updates. Held updates beyond a final
position wait for the next attempt; a channel with more pages to come yields to the others. -/
def finishChannelDifference (s : MessageBoxes) (channelId : Int) (diff : ChannelDifferenceParts)
    (previousFailures : Nat) (now : Instant) : MessageBoxes :=
  let key := Key.channel channelId
  let s := s.resetTimeout key diff.timeout now
  if diff.isFinal then
    let (s, beyond) := s.retainContiguousHeldUpdates channelId diff.pts
    if beyond.isEmpty then s
    else s.scheduleChannelRetry key (saturatingSucc previousFailures) beyond now
  else s.rotate key

/-- The messages of a channel difference, as updates without a position of their own. -/
def channelMessages (s : MessageBoxes) (channelId : Int) (diff : ChannelDifferenceParts) :
    List (Update × State) :=
  diff.newMessages.map fun message =>
    (Update.newChannelMessage message noPts 0,
      State.mk s.date s.seq (some (.channel channelId diff.pts)))

/-- Apply the result of getting the difference of the first ready channel. -/
def applyChannelDifference (s : MessageBoxes) (difference : ChannelDifference) (now : Instant) :
    Except Exit (MessageBoxes × UpdateAndPeers) := do
  match s.channelInDiff with
  | none => .error (.panic .noReadyChannel)
  | some channelId =>
    let key := Key.channel channelId
    let previousFailures := ((s.entry key).map LiveEntry.recoveryFailures).getD 0
    let diff ← adaptChannelDifference difference
    let updates := retainValidUpdates diff.otherUpdates
    let s ← s.beginChannelDifference channelId diff now
    match s.processUpdatesInner (.updates (.updates updates diff.users diff.chats noDate noSeq))
        [key] now with
    | .error (.gap _) => .error (.panic .gapInChannelDifference)
    | .error (.panic reason) => .error (.panic reason)
    | .ok (s, result) =>
      return (s.finishChannelDifference channelId diff previousFailures now,
        { result with updates := result.updates ++ s.channelMessages channelId diff })

/-- Apply a channel difference after checking the position it carries. -/
def tryApplyChannelDifference (s : MessageBoxes) (difference : ChannelDifference) (now : Instant) :
    Except Exit (MessageBoxes × UpdateAndPeers) :=
  match s.channelInDiff with
  | none => .error (.gap s)
  | some channelId =>
    if ¬difference.isValid channelId then .error (.gap s) else s.applyChannelDifference difference now

/-- Whether a channel has spent its grace for missing access. -/
def graceSpent (s : MessageBoxes) (channelId : Int) : Bool :=
  decide (channelId ∈ s.exhaustedChannels) ||
    (s.entry (.channel channelId)).any fun entry =>
      decide (maxChannelDeferrals ≤ entry.recoveryDeferrals)

/-- Take a ready recovery off the queue until a deadline. -/
def deferUntil (s : MessageBoxes) (key : Key) (deadline : Instant) : MessageBoxes :=
  let s := s.updateEntry key fun entry => { entry with
    recoveryDeferred := true
    recoveryDeferrals := entry.recoveryDeferrals + 1 }
  let s := { s with
    readyDiffCount := s.readyDiffCount - 1
    gettingDiffFor := s.gettingDiffFor.erase key }
  let s := s.updateEntry key fun entry => { entry with deadline := deadline }
  { s with nextDeadline := min s.nextDeadline deadline }

/-- Postpone the first ready channel difference, or give its position up. -/
def deferChannelDifference (s : MessageBoxes) (retryAfter : Duration) (now : Instant) :
    Except Exit MessageBoxes :=
  match s.channelInDiff with
  | none => .error (.panic .noReadyChannel)
  | some channelId =>
    let key := Key.channel channelId
    if s.graceSpent channelId then do
      let s := { s with exhaustedChannels := insert channelId s.exhaustedChannels }
      let s ← s.tryEndGetDiff key now
      return s.popEntry key
    else if s.readyDiffCount = 0 then .error (.panic .readyDiffCountUnderflow)
    else if key ∉ s.gettingDiffFor then .error (.panic .readyChannelNotQueued)
    else .ok (s.deferUntil key (now + min retryAfter noUpdatesTimeout))

/-- Mark the first ready channel exhausted if its grace is spent. -/
def tryExhaustChannelGrace (s : MessageBoxes) : Except Exit (MessageBoxes × Bool) :=
  match s.channelInDiff with
  | none => .error (.panic .noReadyChannel)
  | some channelId =>
    if s.graceSpent channelId then
      .ok ({ s with exhaustedChannels := insert channelId s.exhaustedChannels }, true)
    else .ok (s, false)

/-- Reset the grace of the first ready channel after usable access is found. -/
def channelDifferenceAccessible (s : MessageBoxes) : Except Exit MessageBoxes :=
  match s.channelInDiff with
  | none => .error (.panic .noReadyChannel)
  | some channelId =>
    let s := { s with exhaustedChannels := s.exhaustedChannels.erase channelId }
    .ok (s.updateEntry (.channel channelId) fun entry => { entry with recoveryDeferrals := 0 })

/-- Allow another difference for a channel without its delay after failures. -/
def retryChannelWithoutDelay (s : MessageBoxes) (channelId : Int) (now : Instant) : MessageBoxes :=
  let key := Key.channel channelId
  let retry := (s.entry key).any fun entry => entry.possibleGap.isSome
  let s := s.updateEntry key fun entry => { entry with
    recoveryFailures := entry.recoveryFailures - 1
    retryNotBefore := none
    possibleGap := entry.possibleGap.map fun gap => { gap with deadline := now } }
  if retry then { s with nextDeadline := now } else s

def endChannelDifference (s : MessageBoxes) (reason : PrematureEndReason) (now : Instant) :
    Except Exit MessageBoxes :=
  match s.channelInDiff with
  | none => .error (.panic .noReadyChannel)
  | some channelId =>
    let key := Key.channel channelId
    let failures := ((s.entry key).map fun entry => saturatingSucc entry.recoveryFailures).getD 0
    let s := s.updateEntry key fun entry => { entry with possibleGap := none }
    match reason with
    | .temporaryServerIssues => do
      let s ← s.tryEndGetDiff key now
      match s.entry key with
      | some entry =>
        let (s, beyond) := s.retainContiguousHeldUpdates channelId entry.pts
        return s.scheduleChannelRetry key failures beyond now
      | none => return s
    | .banned => do
      let s ← s.tryEndGetDiff key now
      return s.popEntry key

/-- Discard the account position, its backlog and any pending account recovery. -/
def discardAccountState (s : MessageBoxes) (now : Instant) : Except Exit MessageBoxes := do
  let s ← s.tryEndGetDiff .common now
  let s ← (s.popEntry .common).tryEndGetDiff .secondary now
  return s.popEntry .secondary

end MessageBoxes

end Grammers
