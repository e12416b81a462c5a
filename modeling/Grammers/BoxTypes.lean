import Mathlib.Data.Prod.Lex
import Mathlib.Data.Finset.Insert

namespace Grammers

/-- Monotonic clock readings and durations, in nanoseconds. -/
abbrev Instant := Nat

abbrev Duration := Nat

def fromSecs (secs : Nat) : Duration := secs * 1000000000

def fromMillis (millis : Nat) : Duration := millis * 1000000

def noSeq : Int32 := 0

def noPts : Int32 := 0

def noDate : Int32 := 0

def possibleGapTimeout : Duration := fromMillis 500

def noUpdatesTimeout : Duration := fromSecs (15 * 60)

def maxChannelDeferrals : Nat := 30

def maxHeldUpdates : Nat := 512

def channelRetryDelayLimit : Duration := fromSecs 60

def maxInsertionSortUpdates : Nat := 32

/-- A sortable message box entry key. -/
inductive Key
  | common
  | secondary
  | channel (id : Int)

def Key.rank : Key → Nat ×ₗ Int
  | .common => toLex (0, 0)
  | .secondary => toLex (1, 0)
  | .channel id => toLex (2, id)

theorem Key.rank_injective : Function.Injective Key.rank := by
  intro a b h
  cases a <;> cases b <;> simp_all [Key.rank]

instance : LinearOrder Key := LinearOrder.lift' Key.rank Key.rank_injective

instance : LawfulBEq Key := inferInstance

/-! Server objects, with the fields that update handling reads or copies. -/

inductive Peer
  | user (userId : Int)
  | chat (chatId : Int)
  | channel (channelId : Int)
  deriving DecidableEq

inductive InputPeer
  | empty
  | peerSelf
  | chat (chatId : Int)
  | user (userId : Int)
  | channel (channelId : Int)
  | userFromMessage (userId : Int)
  | channelFromMessage (channelId : Int)
  deriving DecidableEq

inductive Message
  | empty (id : Int32) (peerId : Option Peer)
  | message (id : Int32) (fromId : Option Peer) (peerId : Peer) (date : Int32)
  | service (id : Int32) (peerId : Peer)
  deriving DecidableEq

structure EncryptedMessage where
  randomId : Int
  deriving DecidableEq

structure User where
  id : Int
  deriving DecidableEq

structure Chat where
  id : Int
  deriving DecidableEq

/-- The update constructors that carry a position, and all others as `other`. -/
inductive Update
  | newMessage (message : Message) (pts ptsCount : Int32)
  | deleteMessages (messages : List Int32) (pts ptsCount : Int32)
  | newEncryptedMessage (message : EncryptedMessage) (qts : Int32)
  | readHistoryInbox (peer : Peer) (maxId pts ptsCount : Int32)
  | readHistoryOutbox (peer : Peer) (maxId pts ptsCount : Int32)
  | webPage (pts ptsCount : Int32)
  | readMessagesContents (messages : List Int32) (pts ptsCount : Int32)
  | channelTooLong (channelId : Int) (pts : Option Int32)
  | newChannelMessage (message : Message) (pts ptsCount : Int32)
  | readChannelInbox (channelId : Int) (maxId pts : Int32)
  | deleteChannelMessages (channelId : Int) (messages : List Int32) (pts ptsCount : Int32)
  | editChannelMessage (message : Message) (pts ptsCount : Int32)
  | editMessage (message : Message) (pts ptsCount : Int32)
  | channelWebPage (channelId : Int) (pts ptsCount : Int32)
  | folderPeers (pts ptsCount : Int32)
  | pinnedMessages (peer : Peer) (messages : List Int32) (pts ptsCount : Int32)
  | pinnedChannelMessages (channelId : Int) (messages : List Int32) (pts ptsCount : Int32)
  | chatParticipant (qts : Int32)
  | channelParticipant (qts : Int32)
  | botStopped (qts : Int32)
  | botChatInviteRequester (qts : Int32)
  | botChatBoost (qts : Int32)
  | botMessageReaction (qts : Int32)
  | botMessageReactions (qts : Int32)
  | botNewBusinessMessage (qts : Int32)
  | botEditBusinessMessage (qts : Int32)
  | botDeleteBusinessMessage (messages : List Int32) (qts : Int32)
  | botPurchasedPaidMedia (qts : Int32)
  | other (constructorId : UInt32)
  deriving DecidableEq

structure UpdateShortMessage where
  id : Int32
  userId : Int
  pts : Int32
  ptsCount : Int32
  date : Int32
  deriving DecidableEq

structure UpdateShortChatMessage where
  id : Int32
  fromId : Int
  chatId : Int
  pts : Int32
  ptsCount : Int32
  date : Int32
  deriving DecidableEq

structure UpdateShortSentMessage where
  id : Int32
  pts : Int32
  ptsCount : Int32
  date : Int32
  deriving DecidableEq

structure UpdatesCombined where
  updates : List Update
  users : List User
  chats : List Chat
  date : Int32
  seqStart : Int32
  seq : Int32
  deriving DecidableEq

inductive Updates
  | tooLong
  | updateShortMessage (short : UpdateShortMessage)
  | updateShortChatMessage (short : UpdateShortChatMessage)
  | updateShort (update : Update) (date : Int32)
  | combined (combined : UpdatesCombined)
  | updates (updates : List Update) (users : List User) (chats : List Chat) (date seq : Int32)
  | updateShortSentMessage (short : UpdateShortSentMessage)
  deriving DecidableEq

structure SendMessage where
  peer : InputPeer
  sendAs : Option InputPeer
  deriving DecidableEq

structure AffectedMessages where
  pts : Int32
  ptsCount : Int32
  deriving DecidableEq

/-- Anything that should be treated like an update. -/
inductive UpdatesLike
  | updates (updates : Updates)
  | shortSentMessage (request : SendMessage) (update : UpdateShortSentMessage)
  | affectedMessages (affected : AffectedMessages)
  | affectedChannelMessages (affected : AffectedMessages) (channelId : Int)
      (messageIds : List Int32)
  | invitedUsers (updates : Updates)
  | chatInviteJoinResult (updates : Updates)
  | connectionClosed
  | malformedUpdates
  deriving DecidableEq

/-- The account state a server reply carries (`updates.State`). -/
structure ServerState where
  pts : Int32
  qts : Int32
  date : Int32
  seq : Int32
  deriving DecidableEq

structure DifferenceParts where
  newMessages : List Message
  newEncryptedMessages : List EncryptedMessage
  otherUpdates : List Update
  chats : List Chat
  users : List User
  state : ServerState
  deriving DecidableEq

inductive Difference
  | empty (date seq : Int32)
  | difference (parts : DifferenceParts)
  | slice (parts : DifferenceParts)
  | tooLong (pts : Int32)
  deriving DecidableEq

inductive Dialog
  | dialog (peer : Peer) (pts : Option Int32)
  | folder
  | community
  deriving DecidableEq

structure ChannelDifferenceParts where
  isFinal : Bool
  pts : Int32
  timeout : Option Int32
  newMessages : List Message
  otherUpdates : List Update
  chats : List Chat
  users : List User
  deriving DecidableEq

inductive ChannelDifference
  | empty (isFinal : Bool) (pts : Int32) (timeout : Option Int32)
  | tooLong (isFinal : Bool) (timeout : Option Int32) (dialog : Dialog) (chats : List Chat)
      (users : List User)
  | difference (parts : ChannelDifferenceParts)
  deriving DecidableEq

/-! The message box itself. -/

/-- The message box and position that identify a message-related update. -/
inductive MessageBox
  | common (pts : Int32)
  | secondary (qts : Int32)
  | channel (channelId : Int) (pts : Int32)
  deriving DecidableEq

def MessageBox.pts : MessageBox → Int32
  | .common pts => pts
  | .secondary qts => qts
  | .channel _ pts => pts

def MessageBox.key : MessageBox → Key
  | .common _ => .common
  | .secondary _ => .secondary
  | .channel channelId _ => .channel channelId

/-- Update state, up to and including the update it is a part of. -/
structure State where
  date : Int32
  seq : Int32
  messageBox : Option MessageBox
  deriving DecidableEq

structure PtsInfo where
  key : Key
  pts : Int32
  count : Int32
  deriving DecidableEq

def PtsInfo.toMessageBox (info : PtsInfo) : MessageBox :=
  match info.key with
  | .common => .common info.pts
  | .secondary => .secondary info.pts
  | .channel channelId => .channel channelId info.pts

@[simp] theorem PtsInfo.toMessageBox_key (info : PtsInfo) : info.toMessageBox.key = info.key := by
  unfold PtsInfo.toMessageBox
  split <;> simp_all [MessageBox.key]

@[simp] theorem PtsInfo.toMessageBox_pts (info : PtsInfo) : info.toMessageBox.pts = info.pts := by
  unfold PtsInfo.toMessageBox
  split <;> rfl

structure PossibleGap where
  deadline : Instant
  updates : List Update
  deriving DecidableEq

structure LiveEntry where
  key : Key
  pts : Int32
  deadline : Instant
  recoveryDeferred : Bool
  recoveryPending : Bool
  recoveryDeferrals : Nat
  recoveryFailures : Nat
  retryNotBefore : Option Instant
  possibleGap : Option PossibleGap
  deriving DecidableEq

/-- An entry with a position and nothing else going on. -/
def LiveEntry.fresh (key : Key) (pts : Int32) (deadline : Instant) : LiveEntry where
  key := key
  pts := pts
  deadline := deadline
  recoveryDeferred := false
  recoveryPending := false
  recoveryDeferrals := 0
  recoveryFailures := 0
  retryNotBefore := none
  possibleGap := none

def LiveEntry.effectiveDeadline (entry : LiveEntry) : Instant :=
  let due := match entry.possibleGap with
    | some gap => min gap.deadline entry.deadline
    | none => entry.deadline
  match entry.retryNotBefore with
  | some notBefore => max due notBefore
  | none => due

structure MessageBoxes where
  entries : List LiveEntry
  date : Int32
  seq : Int32
  gettingDiffFor : List Key
  readyDiffCount : Nat
  exhaustedChannels : Finset Int
  heldUpdates : List (Int × Update)
  heldReleaseReady : Bool
  heldOverflowed : Bool
  nextDeadline : Instant
  deriving DecidableEq

structure ChannelState where
  id : Int
  pts : Int32
  deriving DecidableEq

/-- Saved update state, as sessions keep it. -/
structure UpdatesState where
  pts : Int32
  qts : Int32
  date : Int32
  seq : Int32
  channels : List ChannelState
  deriving DecidableEq

/-- Delivered updates with their state, and the peers that came with them. -/
structure UpdateAndPeers where
  updates : List (Update × State)
  users : List User
  chats : List Chat
  deriving DecidableEq

inductive PrematureEndReason
  | temporaryServerIssues
  | banned
  deriving DecidableEq

/-- The panics and failed expectations of the message box code. -/
inductive Panic
  | noReadyChannel
  | entryWithoutKnownState
  | readyRecoveryNotQueued
  | readyDiffCountUnderflow
  | readyChannelNotQueued
  | gapUpdateWithoutPts
  | gapInDifference
  | gapInChannelDifference
  | dialogWithoutPts
  | dialogFolder
  | dialogCommunity
  deriving DecidableEq

/-- How a call ends other than normally: with a panic, or with a reported gap
and the state it leaves behind. -/
inductive Exit
  | panic (reason : Panic)
  | gap (boxes : MessageBoxes)
  deriving DecidableEq

end Grammers
