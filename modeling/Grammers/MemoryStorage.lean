import Grammers.SessionTypes

namespace Grammers

/-! Identifiers that hold what kind of peer they are of. -/

namespace PeerId

def selfUser : PeerId := ⟨2 ^ 40⟩

def userUnchecked (id : Int) : PeerId := ⟨id⟩

def chatUnchecked (id : Int) : PeerId := ⟨-id⟩

def channelUnchecked (id : Int) : PeerId := ⟨-(1000000000000 + id)⟩

/-- The kind of a peer; no other identifier can be built. -/
def kind (p : PeerId) : Option PeerKind :=
  if 1 ≤ p.dialogId ∧ p.dialogId ≤ 0xffffffffff ∨ p = selfUser then some .user
  else if -999999999999 ≤ p.dialogId ∧ p.dialogId ≤ -1 then some .chat
  else if -1997852516352 ≤ p.dialogId ∧ p.dialogId ≤ -1000000000001 ∨
      -4000000000000 ≤ p.dialogId ∧ p.dialogId ≤ -2002147483649 then some .channel
  else none

def botApiDialogId (p : PeerId) : Option Int := if p ≠ selfUser then some p.dialogId else none

def bareId (p : PeerId) : PeerKind → Int
  | .user => p.dialogId
  | .chat => -p.dialogId
  | .channel => -p.dialogId - 1000000000000

end PeerId

namespace PeerInfo

def id : PeerInfo → PeerId
  | .user id _ _ _ => .userUnchecked id
  | .chat id => .chatUnchecked id
  | .channel id _ _ => .channelUnchecked id

def auth : PeerInfo → Option Int
  | .user _ auth _ _ => auth
  | .chat _ => some 0
  | .channel _ auth _ => auth

/-- What is new in another info of the same peer replaces what was known. -/
def extendInfo : PeerInfo → PeerInfo → PeerInfo
  | .user id auth bot isSelf, .user newId newAuth newBot newSelf =>
    if id = newId then .user id (newAuth.or auth) (newBot.or bot) (newSelf.or isSelf)
    else .user id auth bot isSelf
  | .channel id auth kind, .channel newId newAuth newKind =>
    if id = newId then .channel id (newAuth.or auth) (newKind.or kind) else .channel id auth kind
  | info, _ => info

/-- Identifiers in the range of their kind. -/
def Valid : PeerInfo → Prop
  | .user id _ _ _ => 1 ≤ id ∧ id ≤ 0xffffffffff
  | .chat id => 1 ≤ id ∧ id ≤ 999999999999
  | .channel id _ _ => 1 ≤ id ∧ id ≤ 997852516352 ∨ 1002147483649 ≤ id ∧ id ≤ 3000000000000

def isSelf : PeerInfo → Bool
  | .user _ _ _ isSelf => isSelf = some true
  | _ => false

end PeerInfo

inductive UpdateState where
  | all (state : UpdatesState)
  | primary (pts date seq : Int32)
  | secondary (qts : Int32)
  | channel (id : Int) (pts : Int32)
  deriving DecidableEq

/-- One datacenter option, under the key it was stored with. -/
structure StoredDcOption where
  key : Int32
  option : DcOption
  deriving DecidableEq

structure MemorySession where
  homeDc : Int32
  dcOptions : List StoredDcOption
  peerInfos : HashMap PeerId PeerInfo
  updates : UpdatesState

namespace MemorySession

def ofData (data : SessionData) : MemorySession where
  homeDc := data.homeDc
  dcOptions := data.dcOptions.entries.map fun e => ⟨e.1, e.2⟩
  peerInfos := data.peerInfos
  updates := data.updatesState

def homeDcId (s : MemorySession) : Int32 := s.homeDc

def setHomeDcId (s : MemorySession) (dcId : Int32) : MemorySession := { s with homeDc := dcId }

def dcOption (s : MemorySession) (dcId : Int32) : Option DcOption :=
  (s.dcOptions.find? fun stored => stored.key = dcId).map StoredDcOption.option

/-- Replace the first option under the same key. -/
def replaceStored (stored : StoredDcOption) : List StoredDcOption → List StoredDcOption
  | [] => [stored]
  | existing :: rest =>
    if existing.key = stored.key then stored :: rest else existing :: replaceStored stored rest

def setDcOption (s : MemorySession) (option : DcOption) : MemorySession :=
  { s with dcOptions := replaceStored ⟨option.id, option⟩ s.dcOptions }

def peer (s : MemorySession) (id : PeerId) : Option PeerInfo :=
  if id = .selfUser then (s.peerInfos.entries.map Sigma.snd).find? PeerInfo.isSelf
  else s.peerInfos.lookup id

def cachePeer (s : MemorySession) (info : PeerInfo) : MemorySession :=
  { s with peerInfos :=
      s.peerInfos.insert info.id (((s.peerInfos.lookup info.id).getD info).extendInfo info) }

def cachePeers (s : MemorySession) (infos : List PeerInfo) : MemorySession :=
  { s with peerInfos := infos.foldl (fun peers info =>
      match peers.lookup info.id with
      | some existing => peers.insert info.id (existing.extendInfo info)
      | none => peers.insert info.id info) s.peerInfos }

def updatesState (s : MemorySession) : UpdatesState := s.updates

def setUpdateState (s : MemorySession) : UpdateState → MemorySession
  | .all state => { s with updates := state }
  | .primary pts date seq => { s with
      updates := { s.updates with pts := pts, date := date, seq := seq } }
  | .secondary qts => { s with updates := { s.updates with qts := qts } }
  | .channel id pts => { s with updates := { s.updates with
      channels := s.updates.channels.filter (fun c => c.id ≠ id) ++ [⟨id, pts⟩] } }

theorem find_entries {ρ : Type} (entries : List (Sigma fun _ : Int32 => ρ))
    (dcId : Int32) : ((entries.find? fun e => e.1 = dcId).map Sigma.snd) =
      entries.dlookup dcId := by
  induction entries with
  | nil => rfl
  | cons e rest ih =>
    obtain ⟨key, option⟩ := e
    by_cases hkey : key = dcId
    · subst hkey
      simp
    · rw [List.find?_cons_of_neg (by simpa using hkey), ih, List.dlookup_cons_ne _ _ (Ne.symm hkey)]

theorem dcOption_ofData (data : SessionData) (dcId : Int32) :
    (ofData data).dcOption dcId = data.dcOptions.lookup dcId := by
  rw [AList.lookup, ← find_entries, dcOption, ofData]
  simp [List.find?_map, Function.comp_def]

end MemorySession

end Grammers
