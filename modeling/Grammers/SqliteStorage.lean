import Grammers.MemoryStorage

namespace Grammers

/-- Addresses as columns hold them. -/
structure AddressText (τ : Type) where
  showV4 : SocketAddrV4 → τ
  parseV4 : τ → Option SocketAddrV4
  showV6 : SocketAddrV6 → τ
  parseV6 : τ → Option SocketAddrV6

/-- Text without the flow information of an address. -/
def SocketAddrV6.withoutFlow (address : SocketAddrV6) : SocketAddrV6 := { address with flowinfo := 0 }

structure AddressText.Lawful {τ : Type} (text : AddressText τ) : Prop where
  parseV4_showV4 : ∀ address, text.parseV4 (text.showV4 address) = some address
  parseV6_showV6 : ∀ address, text.parseV6 (text.showV6 address) = some address.withoutFlow

inductive PeerSubtype where
  | userSelf
  | userBot
  | userSelfBot
  | megagroup
  | broadcast
  | gigagroup
  | community

def PeerSubtype.code : PeerSubtype → UInt8
  | .userSelf => 1
  | .userBot => 2
  | .userSelfBot => 3
  | .megagroup => 4
  | .broadcast => 8
  | .gigagroup => 12
  | .community => 16

structure DcOptionRow (τ : Type) where
  ipv4 : τ
  ipv6 : τ
  authKey : Option Bytes

structure PeerRow where
  peerId : Int
  hash : Option Int
  subtype : Option UInt8

/-- The row of the user that is logged in. -/
def PeerRow.isSelf (row : PeerRow) : Bool :=
  row.subtype.any fun s => s &&& PeerSubtype.userSelf.code ≠ 0

structure UpdateRow where
  pts : Int32
  qts : Int32
  date : Int32
  seq : Int32

/-- The tables. Those with a primary key hold one row for each key. -/
structure Database (τ : Type) where
  dcHome : List Int32
  dcOption : HashMap Int32 (DcOptionRow τ)
  peerInfo : HashMap Int PeerRow
  updateState : List UpdateRow
  channelState : HashMap Int Int32

namespace Database

variable {τ : Type}

def empty : Database τ := ⟨[], ∅, ∅, [], ∅⟩

def peerFromRow (peer : PeerId) (row : PeerRow) : Option PeerInfo :=
  peer.kind.map fun
    | .user => .user (PeerId.bareId (.userUnchecked row.peerId) .user) row.hash
      (row.subtype.map fun s => s &&& PeerSubtype.userBot.code ≠ 0)
      (row.subtype.map fun s => s &&& PeerSubtype.userSelf.code ≠ 0)
    | .chat => .chat (peer.bareId .chat)
    | .channel => .channel (peer.bareId .channel) row.hash (row.subtype.bind fun s =>
      if s &&& PeerSubtype.gigagroup.code = PeerSubtype.gigagroup.code then some .gigagroup
      else if s &&& PeerSubtype.broadcast.code ≠ 0 then some .broadcast
      else if s &&& PeerSubtype.megagroup.code ≠ 0 then some .megagroup
      else none)

def subtypeOf : PeerInfo → Option PeerSubtype
  | .user _ _ bot isSelf =>
    match bot.getD false, isSelf.getD false with
    | true, true => some .userSelfBot
    | true, false => some .userBot
    | false, true => some .userSelf
    | false, false => none
  | .chat _ => none
  | .channel _ _ kind => kind.map fun
    | .megagroup => .megagroup
    | .broadcast => .broadcast
    | .gigagroup => .gigagroup
    | .community => .community

def rowOf (peer : PeerInfo) : PeerRow :=
  ⟨peer.id.dialogId, peer.auth, (subtypeOf peer).map PeerSubtype.code⟩

/-- Read the row of a peer, and write back what is known of it by then. -/
def cachePeer (db : Database τ) (peer : PeerInfo) : Database τ :=
  let existing := (db.peerInfo.lookup peer.id.dialogId).bind (peerFromRow peer.id)
  let peer := match existing with
    | some existing => existing.extendInfo peer
    | none => peer
  { db with peerInfo := db.peerInfo.insert (rowOf peer).peerId (rowOf peer) }

def readOption (text : AddressText τ) (id : Int32) (row : DcOptionRow τ) : Option DcOption := do
  let ipv4 ← text.parseV4 row.ipv4
  let ipv6 ← text.parseV6 row.ipv6
  match row.authKey with
  | none => some ⟨id, ipv4, ipv6, none⟩
  | some key => if h : key.length = 256 then some ⟨id, ipv4, ipv6, some ⟨key, h⟩⟩ else none

def optionRow (text : AddressText τ) (option : DcOption) : DcOptionRow τ :=
  ⟨text.showV4 option.ipv4, text.showV6 option.ipv6, option.authKey.map Subtype.val⟩

/-- An insertion that fails where the key is taken. -/
def insertChannel (channels : HashMap Int Int32) (c : ChannelState) : Option (HashMap Int Int32) :=
  if (channels.lookup c.id).isSome then none else some (channels.insert c.id c.pts)

def setUpdateState (db : Database τ) : UpdateState → Option (Database τ)
  | .all state => do
    let channels ← state.channels.foldlM insertChannel ∅
    some { db with
      updateState := [⟨state.pts, state.qts, state.date, state.seq⟩]
      channelState := channels }
  | .primary pts date seq =>
    match db.updateState with
    | [] => some { db with updateState := [⟨pts, 0, date, seq⟩] }
    | rows => some { db with
        updateState := rows.map fun row => { row with pts := pts, date := date, seq := seq } }
  | .secondary qts =>
    match db.updateState with
    | [] => some { db with updateState := [⟨0, qts, 0, 0⟩] }
    | rows => some { db with updateState := rows.map fun row => { row with qts := qts } }
  | .channel id pts => some { db with channelState := db.channelState.insert id pts }

end Database

structure SqliteSession (τ : Type) where
  database : Database τ
  homeDc : Int32
  dcOptions : HashMap Int32 DcOption

namespace SqliteSession

variable {τ : Type} (text : AddressText τ)

/-- Open the database, reading what is cached. -/
def «open» (db : Database τ) : Option (SqliteSession τ) := do
  let options ← db.dcOption.entries.mapM fun e => Database.readOption text e.1 e.2
  some ⟨db, db.dcHome.head?.getD defaultDc, DcOption.collect options⟩

variable {text}

def homeDcId (s : SqliteSession τ) : Int32 := s.homeDc

def setHomeDcId (s : SqliteSession τ) (dcId : Int32) : SqliteSession τ :=
  { s with homeDc := dcId, database := { s.database with dcHome := [dcId] } }

def dcOption (s : SqliteSession τ) (dcId : Int32) : Option DcOption :=
  (s.dcOptions.lookup dcId).or (knownDcOptions.find? fun option => option.id = dcId)

def setDcOption (text : AddressText τ) (s : SqliteSession τ) (option : DcOption) : SqliteSession τ :=
  { s with
    dcOptions := s.dcOptions.insert option.id option
    database := { s.database with
      dcOption := s.database.dcOption.insert option.id (Database.optionRow text option) } }

def peer (s : SqliteSession τ) (peer : PeerId) : Option PeerInfo :=
  match peer.botApiDialogId with
  | some peerId => (s.database.peerInfo.lookup peerId).bind (Database.peerFromRow peer)
  | none =>
    ((s.database.peerInfo.entries.map Sigma.snd).find? PeerRow.isSelf).bind
      (Database.peerFromRow peer)

def cachePeer (s : SqliteSession τ) (peer : PeerInfo) : SqliteSession τ :=
  { s with database := s.database.cachePeer peer }

/-- One transaction; each peer is read after the writes before it. -/
def cachePeers (s : SqliteSession τ) (peers : List PeerInfo) : SqliteSession τ :=
  if peers.isEmpty then s else { s with database := peers.foldl Database.cachePeer s.database }

def updatesState (s : SqliteSession τ) : UpdatesState :=
  let row := s.database.updateState.head?.getD ⟨0, 0, 0, 0⟩
  ⟨row.pts, row.qts, row.date, row.seq, s.database.channelState.entries.map fun e => ⟨e.1, e.2⟩⟩

def setUpdateState (s : SqliteSession τ) (update : UpdateState) : Option (SqliteSession τ) :=
  (s.database.setUpdateState update).map fun db => { s with database := db }

end SqliteSession

/-- What is asked of a session, and that its database is closed and opened again. -/
inductive StorageOp where
  | setHomeDcId (dcId : Int32)
  | setDcOption (option : DcOption)
  | cachePeer (peer : PeerInfo)
  | cachePeers (peers : List PeerInfo)
  | setUpdateState (update : UpdateState)
  | reopen

namespace StorageOp

/-- Identifiers are in range, and a state has at most one entry for a channel. -/
def Valid : StorageOp → Prop
  | .cachePeer peer => peer.Valid
  | .cachePeers peers => ∀ peer ∈ peers, peer.Valid
  | .setUpdateState (.all state) => (state.channels.map ChannelState.id).Nodup
  | _ => True

/-- The peers that are cached, in order. -/
def peers : StorageOp → List PeerInfo
  | .cachePeer peer => [peer]
  | .cachePeers peers => peers
  | _ => []

def onMemory (s : MemorySession) : StorageOp → MemorySession
  | .setHomeDcId dcId => s.setHomeDcId dcId
  | .setDcOption option => s.setDcOption option
  | .cachePeer peer => s.cachePeer peer
  | .cachePeers peers => s.cachePeers peers
  | .setUpdateState update => s.setUpdateState update
  | .reopen => s

def onSqlite {τ : Type} (text : AddressText τ) (s : SqliteSession τ) :
    StorageOp → Option (SqliteSession τ)
  | .setHomeDcId dcId => some (s.setHomeDcId dcId)
  | .setDcOption option => some (s.setDcOption text option)
  | .cachePeer peer => some (s.cachePeer peer)
  | .cachePeers peers => some (s.cachePeers peers)
  | .setUpdateState update => s.setUpdateState update
  | .reopen => SqliteSession.open text s.database

end StorageOp

namespace MemorySession

def run (ops : List StorageOp) : MemorySession :=
  ops.foldl StorageOp.onMemory (ofData .default)

end MemorySession

namespace SqliteSession

def run {τ : Type} (text : AddressText τ) (ops : List StorageOp) : Option (SqliteSession τ) := do
  ops.foldlM (StorageOp.onSqlite text) (← SqliteSession.open text .empty)

end SqliteSession

end Grammers
