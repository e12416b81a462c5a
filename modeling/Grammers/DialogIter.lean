import Grammers.IterBuffer
import Grammers.MemoryStorage
import Grammers.SwapRemove

namespace Grammers

def Peer.id : Peer → PeerId
  | user userId => .userUnchecked userId
  | chat chatId => .chatUnchecked chatId
  | channel channelId => .channelUnchecked channelId

namespace Dialogs

def maxLimit : Nat := 100

/-- A peer that came with a page, with its access hash. -/
structure ReplyPeer where
  id : PeerId
  auth : Option Int
  deriving DecidableEq

inductive RawDialog where
  | dialog (peer : Peer) (pts : Option Int32)
  | folder (peer : Peer)
  | community (communityId : Int)
  deriving DecidableEq

def RawDialog.peerId : RawDialog → PeerId
  | dialog peer _ => peer.id
  | folder peer => peer.id
  | community communityId => .channelUnchecked communityId

structure RawMessage where
  peer : Option Peer
  date : Int32
  id : Int32
  deriving DecidableEq

structure Dialog where
  raw : RawDialog
  peer : ReplyPeer
  lastMessage : Option RawMessage
  deriving DecidableEq

structure GetDialogs where
  excludePinned : Bool
  offsetDate : Int32
  offsetId : Int32
  offsetPeer : Option (PeerId × Int)
  limit : Nat
  deriving DecidableEq

abbrev DialogIter : Type := IterBuffer GetDialogs Dialog

def init : DialogIter := .fromRequest ⟨false, 0, 0, none, 0⟩

/-- A page of dialogs, with the infos of its peers that are written to the cache. -/
structure Page where
  dialogs : List RawDialog
  messages : List RawMessage
  peers : List ReplyPeer
  cached : List PeerInfo

inductive Reply where
  | dialogs (page : Page)
  | slice (count : Nat) (page : Page)
  | notModified
  | failed

/-- The peer of an identifier; of two with one identifier the later one is in the map. -/
def peerOf (peers : List ReplyPeer) (id : PeerId) : Option ReplyPeer := peers.reverse.find? fun p => p.id = id

/-- A dialog with its peer and its message, which has to be a peer that can be referred to. -/
def Dialog.new (raw : RawDialog) (messages : List RawMessage) (peers : List ReplyPeer) :
    Option (Dialog × List RawMessage) := do
  let peer ← peerOf peers raw.peerId
  match messages.findIdx? fun m => m.peer.map Peer.id = some raw.peerId with
  | none => some (⟨raw, peer, none⟩, messages)
  | some i =>
    let _ ← peer.auth
    some (⟨raw, peer, messages[i]?⟩, SwapRemove.swapRemove messages i)

def newDialogs (peers : List ReplyPeer) : List RawDialog → List RawMessage → Option (List Dialog)
  | [], _ => some []
  | raw :: raws, messages => do
    let (dialog, messages) ← Dialog.new raw messages peers
    let dialogs ← newDialogs peers raws messages
    some (dialog :: dialogs)

/-- The channels of a page whose dialog carries a position. -/
def channelPositions (dialogs : List RawDialog) : List ChannelState :=
  dialogs.filterMap fun
    | .dialog (.channel id) (some pts) => some ⟨id, pts⟩
    | _ => none

/-- The positions are written one after the other, until a write fails. -/
def setPositions (session : MemorySession) :
    List ChannelState → Option Nat → MemorySession × Bool
  | [], _ => (session, true)
  | _ :: _, some 0 => (session, false)
  | c :: rest, failsAt =>
    setPositions (session.setUpdateState (.channel c.id c.pts)) rest (failsAt.map (· - 1))

inductive Outcome where
  | ok (item : Option Dialog)
  | err
  | panic
  deriving DecidableEq

structure Next where
  outcome : Outcome
  iter : DialogIter
  session : MemorySession

/-- Where the next page starts. -/
def updateOffsets (iter : DialogIter) : Option DialogIter :=
  match iter.buffer.getLast? with
  | none => some iter
  | some last =>
    if iter.lastChunk then some iter
    else do
      let auth ← last.peer.auth
      let request := { iter.request with excludePinned := true, offsetPeer := some (last.peer.id, auth) }
      match iter.buffer.reverse.findSome? Dialog.lastMessage with
      | none => some { iter with request := request }
      | some m => some { iter with
          request := { request with offsetDate := m.date, offsetId := m.id } }

/-- What a page does once it is there. -/
def handlePage (iter : DialogIter) (session : MemorySession) (page : Page) (failsAt : Option Nat) :
    Next :=
  let (session, written) := setPositions (session.cachePeers page.cached)
    (channelPositions page.dialogs) failsAt
  if written then
    match newDialogs page.peers page.dialogs page.messages with
    | none => ⟨.panic, iter, session⟩
    | some dialogs =>
      match updateOffsets { iter with buffer := iter.buffer ++ dialogs } with
      | none => ⟨.panic, iter, session⟩
      | some iter =>
        let (item, iter) := iter.popItem
        ⟨.ok item, iter, session⟩
  else ⟨.err, iter, session⟩

/-- One call, with what the server replies if it is asked and the write that fails. -/
def next (iter : DialogIter) (session : MemorySession) (reply : Reply) (failsAt : Option Nat) : Next :=
  match iter.nextRaw with
  | some (item, iter) => ⟨.ok item, iter, session⟩
  | none =>
    let iter := { iter with request := { iter.request with limit := iter.determineLimit maxLimit } }
    match reply with
    | .failed => ⟨.err, iter, session⟩
    | .notModified => ⟨.panic, iter, session⟩
    | .dialogs page =>
      handlePage { iter with lastChunk := true, total := some page.dialogs.length } session page
        failsAt
    | .slice count page =>
      handlePage { iter with
        lastChunk := page.dialogs.length < iter.request.limit, total := some count } session page
        failsAt

end Dialogs

end Grammers
