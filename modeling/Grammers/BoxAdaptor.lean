import Grammers.BoxTypes
import Grammers.StableSort
import Mathlib.Algebra.Group.Int.Defs

namespace Grammers

open StableSort

/-- The identifier ranges of broadcast channels, megagroups and monoforums. -/
def isChannelId (id : Int) : Bool :=
  (1 ≤ id && id ≤ 997852516352) || (1002147483649 ≤ id && id ≤ 3000000000000)

/-- `i32` subtraction that stops at the bounds of the type. -/
def saturatingSub (a b : Int32) : Int32 :=
  if a.toInt - b.toInt < -2 ^ 31 then -2147483648
  else if 2 ^ 31 ≤ a.toInt - b.toInt then 2147483647
  else a - b

def updates (updates : List Update) (users : List User) (chats : List Chat) (date seq : Int32) :
    UpdatesCombined where
  updates := updates
  users := users
  chats := chats
  date := date
  seqStart := seq
  seq := seq

def updateShort (update : Update) (date : Int32) : UpdatesCombined where
  updates := [update]
  users := []
  chats := []
  date := date
  seqStart := noSeq
  seq := noSeq

def updateShortMessage (short : UpdateShortMessage) : UpdatesCombined :=
  updateShort (.newMessage (.message short.id none (.user short.userId) short.date)
    short.pts short.ptsCount) short.date

def updateShortChatMessage (short : UpdateShortChatMessage) : UpdatesCombined :=
  updateShort (.newMessage (.message short.id (some (.user short.fromId)) (.chat short.chatId)
    short.date) short.pts short.ptsCount) short.date

def updateShortSentMessage (short : UpdateShortSentMessage) : UpdatesCombined :=
  updateShort (.newMessage (.empty short.id none) short.pts short.ptsCount) short.date

def adaptUpdates : Updates → Option UpdatesCombined
  | .tooLong => none
  | .updateShortMessage short => some (updateShortMessage short)
  | .updateShortChatMessage short => some (updateShortChatMessage short)
  | .updateShort update date => some (updateShort update date)
  | .combined combined => some combined
  | .updates us users chats date seq => some (updates us users chats date seq)
  | .updateShortSentMessage short => some (updateShortSentMessage short)

def peerFromInputPeer : InputPeer → Peer
  | .empty => .user 0
  | .peerSelf => .user 0
  | .chat chatId => .chat chatId
  | .user userId => .user userId
  | .channel channelId => .channel channelId
  | .userFromMessage userId => .user userId
  | .channelFromMessage channelId => .channel channelId

/-- Bring anything update-like into one shape; `none` is a gap. -/
def adapt : UpdatesLike → Option UpdatesCombined
  | .updates us => adaptUpdates us
  | .shortSentMessage request update =>
    some (updateShort (.newMessage (.message update.id (request.sendAs.map peerFromInputPeer)
      (peerFromInputPeer request.peer) update.date) update.pts update.ptsCount) update.date)
  | .affectedMessages affected =>
    some (updateShort (.deleteMessages [] affected.pts affected.ptsCount) 0)
  | .affectedChannelMessages affected channelId messageIds =>
    some (updateShort (.deleteChannelMessages channelId messageIds affected.pts
      affected.ptsCount) 0)
  | .invitedUsers us => adaptUpdates us
  | .chatInviteJoinResult us => adaptUpdates us
  | .connectionClosed => none
  | .malformedUpdates => none

def adaptChannelDifference : ChannelDifference → Except Exit ChannelDifferenceParts
  | .empty isFinal pts timeout => .ok ⟨isFinal, pts, timeout, [], [], [], []⟩
  | .tooLong isFinal timeout dialog chats users =>
    match dialog with
    | .dialog _ (some pts) => .ok ⟨isFinal, pts, timeout, [], [], chats, users⟩
    | .dialog _ none => .error (.panic .dialogWithoutPts)
    | .folder => .error (.panic .dialogFolder)
    | .community => .error (.panic .dialogCommunity)
  | .difference parts => .ok parts

def messagePeer : Message → Option Peer
  | .empty _ peerId => peerId
  | .message _ _ peerId _ => some peerId
  | .service _ peerId => some peerId

def messageChannelId (message : Message) : Option Int :=
  match messagePeer message with
  | some (.channel channelId) => some channelId
  | _ => none

def Peer.isChannel : Peer → Bool
  | .channel _ => true
  | _ => false

namespace PtsInfo

def rawFromUpdate : Update → Option PtsInfo
  | .newMessage _ pts ptsCount => some ⟨.common, pts, ptsCount⟩
  | .deleteMessages _ pts ptsCount => some ⟨.common, pts, ptsCount⟩
  | .newEncryptedMessage _ qts => some ⟨.secondary, qts, 1⟩
  | .readHistoryInbox _ _ pts ptsCount => some ⟨.common, pts, ptsCount⟩
  | .readHistoryOutbox _ _ pts ptsCount => some ⟨.common, pts, ptsCount⟩
  | .webPage pts ptsCount => some ⟨.common, pts, ptsCount⟩
  | .readMessagesContents _ pts ptsCount => some ⟨.common, pts, ptsCount⟩
  | .channelTooLong channelId pts => pts.map fun pts => ⟨.channel channelId, pts, 0⟩
  | .newChannelMessage message pts ptsCount =>
    (messageChannelId message).map fun channelId => ⟨.channel channelId, pts, ptsCount⟩
  | .readChannelInbox channelId _ pts => some ⟨.channel channelId, pts, 0⟩
  | .deleteChannelMessages channelId _ pts ptsCount => some ⟨.channel channelId, pts, ptsCount⟩
  | .editChannelMessage message pts ptsCount =>
    (messageChannelId message).map fun channelId => ⟨.channel channelId, pts, ptsCount⟩
  | .editMessage _ pts ptsCount => some ⟨.common, pts, ptsCount⟩
  | .channelWebPage channelId pts ptsCount => some ⟨.channel channelId, pts, ptsCount⟩
  | .folderPeers pts ptsCount => some ⟨.common, pts, ptsCount⟩
  | .pinnedMessages _ _ pts ptsCount => some ⟨.common, pts, ptsCount⟩
  | .pinnedChannelMessages channelId _ pts ptsCount => some ⟨.channel channelId, pts, ptsCount⟩
  | .chatParticipant qts => some ⟨.secondary, qts, 1⟩
  | .channelParticipant qts => some ⟨.secondary, qts, 1⟩
  | .botStopped qts => some ⟨.secondary, qts, 1⟩
  | .botChatInviteRequester qts => some ⟨.secondary, qts, 1⟩
  | .botChatBoost qts => some ⟨.secondary, qts, 1⟩
  | .botMessageReaction qts => some ⟨.secondary, qts, 1⟩
  | .botMessageReactions qts => some ⟨.secondary, qts, 1⟩
  | .botNewBusinessMessage qts => some ⟨.secondary, qts, 1⟩
  | .botEditBusinessMessage qts => some ⟨.secondary, qts, 1⟩
  -- the length of the list wraps to `i32`
  | .botDeleteBusinessMessage messages qts =>
    some ⟨.secondary, qts, Int32.ofNat messages.length⟩
  | .botPurchasedPaidMedia qts => some ⟨.secondary, qts, 1⟩
  | .other _ => none

def fromUpdate (update : Update) : Option PtsInfo :=
  (rawFromUpdate update).filter fun info => info.pts ≠ noPts

/-- Whether the peer of an update fits the sequence its constructor belongs to. -/
def validPeer : Update → Bool
  | .newMessage message _ _ => !(messagePeer message).any Peer.isChannel
  | .editMessage message _ _ => !(messagePeer message).any Peer.isChannel
  | .readHistoryInbox peer _ _ _ => !peer.isChannel
  | .readHistoryOutbox peer _ _ _ => !peer.isChannel
  | .pinnedMessages peer _ _ _ => !peer.isChannel
  | .newChannelMessage message _ _ => (messagePeer message).all Peer.isChannel
  | .editChannelMessage message _ _ => (messagePeer message).all Peer.isChannel
  | _ => true

def validUpdate (update : Update) : Bool :=
  validPeer update && (rawFromUpdate update).all fun info =>
    decide (0 ≤ info.count) && (decide (info.pts = noPts) || decide (info.count ≤ info.pts)) &&
      match info.key with
      | .channel id => isChannelId id
      | _ => true

/-- The position an update starts from, once it is known to be in range. -/
def start (info : PtsInfo) : Int := info.pts.toInt - info.count.toInt

end PtsInfo

/-- The `i32` sort key of an update, in the order of the integers. -/
def updateSortKey (update : Update) : Int :=
  match PtsInfo.fromUpdate update with
  | some info => (saturatingSub info.pts info.count).toInt
  | none => noPts.toInt

/-- Stable in-place sort: nothing to do when already sorted, insertion at the
partition point for small batches, the standard stable sort above that. -/
def sortUpdatesByKey {κ : Type} [LinearOrder κ] (key : Update → κ) (updates : List Update) :
    List Update :=
  if Ascending key updates then updates
  else if updates.length > maxInsertionSortUpdates then sortByKey key updates
  else updates.foldl (insertAtPartition key) []

theorem sortUpdatesByKey_eq {κ : Type} [LinearOrder κ] (key : Update → κ) (updates : List Update) :
    sortUpdatesByKey key updates = sortByKey key updates := by
  unfold sortUpdatesByKey
  split
  next h => exact h.sortByKey_eq.symm
  next =>
    split
    next => rfl
    next => exact foldl_insertAtPartition key updates

def retainValidUpdates (updates : List Update) : List Update :=
  updates.filter PtsInfo.validUpdate

/-! What a valid update with a position satisfies. -/

theorem PtsInfo.fromUpdate_eq_some {update : Update} {info : PtsInfo} :
    PtsInfo.fromUpdate update = some info ↔
      PtsInfo.rawFromUpdate update = some info ∧ info.pts ≠ noPts := by
  simp [PtsInfo.fromUpdate, Option.filter_eq_some_iff]

/-- A valid update that is given a position has a count between zero and it, so the
range check repeated on each update of a batch cannot fail. -/
theorem PtsInfo.validUpdate_range {update : Update} {info : PtsInfo}
    (hv : PtsInfo.validUpdate update = true) (hf : PtsInfo.fromUpdate update = some info) :
    0 ≤ info.count.toInt ∧ info.count.toInt ≤ info.pts.toInt := by
  obtain ⟨hraw, hpts⟩ := PtsInfo.fromUpdate_eq_some.mp hf
  simp only [PtsInfo.validUpdate, hraw, Option.all_some, Bool.and_eq_true, Bool.or_eq_true,
    decide_eq_true_eq, hpts, false_or] at hv
  obtain ⟨_, ⟨hcount, hle⟩, _⟩ := hv
  exact ⟨Int32.le_iff_toInt_le.mp hcount, Int32.le_iff_toInt_le.mp hle⟩

theorem toInt_sub_of_range {a b : Int32} (hb : 0 ≤ b.toInt) (hab : b.toInt ≤ a.toInt) :
    (a - b).toInt = a.toInt - b.toInt := by
  have := a.toInt_lt
  rw [Int32.toInt_sub, Int.bmod_eq_of_le] <;> omega

theorem saturatingSub_toInt {a b : Int32} (hb : 0 ≤ b.toInt) (hab : b.toInt ≤ a.toInt) :
    (saturatingSub a b).toInt = a.toInt - b.toInt := by
  have := a.toInt_lt
  rw [saturatingSub, if_neg (by omega), if_neg (by omega), toInt_sub_of_range hb hab]

theorem updateSortKey_eq_start {update : Update} {info : PtsInfo}
    (hv : PtsInfo.validUpdate update = true) (hf : PtsInfo.fromUpdate update = some info) :
    updateSortKey update = info.start := by
  obtain ⟨h1, h2⟩ := PtsInfo.validUpdate_range hv hf
  simp only [updateSortKey, hf, PtsInfo.start]
  exact saturatingSub_toInt h1 h2

end Grammers
