import Grammers.DialogIter
import Grammers.Text

namespace Grammers

namespace Participants

def maxParticipantLimit : Nat := 200

structure User where
  id : Int
  accessHash : Option Int

structure ChatAdminRights where
  (changeInfo postMessages editMessages deleteMessages banUsers inviteUsers pinMessages addAdmins
    anonymous manageCall other manageTopics postStories editStories deleteStories
    manageDirectMessages manageRanks manageLinkedPeers manageWelcomeMessages : Bool)

def ChatAdminRights.newFull : ChatAdminRights :=
  ⟨true, true, true, true, true, true, true, true, true, true, true, true, true, true, true, true, true,
    true, true⟩

structure ChatBannedRights where
  (viewMessages sendMessages sendMedia sendStickers sendGifs sendGames sendInline embedLinks sendPolls
    changeInfo inviteUsers pinMessages manageTopics sendPhotos sendVideos sendRoundvideos sendAudios
    sendVoices sendDocs sendPlain editRank sendReactions manageLinkedPeers : Bool)
  untilDate : Int32

inductive Role where
  | user (date : Int32) (inviterId : Option Int)
  | creator (permissions : ChatAdminRights) (rank : Option Text)
  | admin (canEdit : Bool) (inviterId promotedBy : Option Int) (date : Int32)
      (permissions : ChatAdminRights) (rank : Option Text)
  | banned (left : Bool) (kickedBy : Int) (date : Int32) (restrictions : ChatBannedRights)
  | left

structure Participant where
  user : User
  role : Role

inductive ChannelParticipant where
  | participant (userId : Int) (date : Int32)
  | participantSelf (userId inviterId : Int) (date : Int32)
  | creator (userId : Int) (adminRights : ChatAdminRights) (rank : Option Text)
  | admin (canEdit : Bool) (userId : Int) (inviterId : Option Int) (promotedBy : Int) (date : Int32)
      (adminRights : ChatAdminRights) (rank : Option Text)
  | banned (left : Bool) (peer : Peer) (kickedBy : Int) (date : Int32)
      (bannedRights : ChatBannedRights)
  | left (peer : Peer)

inductive ChatParticipant where
  | participant (userId inviterId : Int) (date : Int32)
  | creator (userId : Int)
  | admin (userId inviterId : Int) (date : Int32)

/-- What a participant of either kind is made of: the peer to take from the map, and its role. -/
structure RawParticipant where
  peer : PeerId
  role : Role

def ChannelParticipant.raw : ChannelParticipant → RawParticipant
  | participant userId date => ⟨.userUnchecked userId, .user date none⟩
  | participantSelf userId inviterId date => ⟨.userUnchecked userId, .user date (some inviterId)⟩
  | creator userId adminRights rank => ⟨.userUnchecked userId, .creator adminRights rank⟩
  | admin canEdit userId inviterId promotedBy date adminRights rank =>
    ⟨.userUnchecked userId, .admin canEdit inviterId (some promotedBy) date adminRights rank⟩
  | banned gone peer kickedBy date bannedRights => ⟨peer.id, .banned gone kickedBy date bannedRights⟩
  | left peer => ⟨peer.id, .left⟩

def ChatParticipant.raw : ChatParticipant → RawParticipant
  | participant userId inviterId date => ⟨.userUnchecked userId, .user date (some inviterId)⟩
  | creator userId => ⟨.userUnchecked userId, .creator .newFull none⟩
  | admin userId inviterId date =>
    ⟨.userUnchecked userId, .admin true (some inviterId) none date .newFull none⟩

/-- Of two users with one identifier the later one is in the map. -/
def get (peers : List User) (peer : PeerId) : Option User :=
  peers.reverse.find? fun user => PeerId.userUnchecked user.id = peer

def remove (peers : List User) (peer : PeerId) : List User :=
  peers.filter fun user => PeerId.userUnchecked user.id ≠ peer

/-- A participant whose user is taken out of the map, where it has to be. -/
def fromRaw (peers : List User) (p : RawParticipant) : Option (Participant × List User) :=
  (get peers p.peer).map fun user => (⟨user, p.role⟩, remove peers p.peer)

def fromRawChannel (peers : List User) (p : ChannelParticipant) : Option (Participant × List User) :=
  fromRaw peers p.raw

def fromRawChat (peers : List User) (p : ChatParticipant) : Option (Participant × List User) :=
  fromRaw peers p.raw

def collect {P : Type} (fromRaw : List User → P → Option (Participant × List User)) :
    List User → List P → Option (List Participant)
  | _, [] => some []
  | peers, p :: ps => do
    let (participant, peers) ← fromRaw peers p
    let participants ← collect fromRaw peers ps
    some (participant :: participants)

/-- The participant of a listed user, with all the data that the user was listed with. -/
def participantOf (users : List User) (p : RawParticipant) : Option Participant :=
  (get users p.peer).map fun user => ⟨user, p.role⟩

/-- The participants are distinct users of the list. Their identifiers are taken to be in range: the
debug assertion of `user_unchecked` is not modelled. -/
def Listed (users : List User) (ps : List RawParticipant) : Prop :=
  (ps.map RawParticipant.peer).Nodup ∧ ∀ p ∈ ps, ∃ user ∈ users, PeerId.userUnchecked user.id = p.peer

theorem get_remove {users : List User} {peer other : PeerId} (h : other ≠ peer) :
    get (remove users peer) other = get users other := by
  rw [get, remove, ← List.filter_reverse, List.find?_filter, get]
  congr 1
  funext user
  by_cases hother : PeerId.userUnchecked user.id = other <;> simp [hother, h]

theorem listed_tail {users : List User} {p : RawParticipant} {ps : List RawParticipant}
    (h : Listed users (p :: ps)) : Listed (remove users p.peer) ps := by
  obtain ⟨hnodup, hall⟩ := h
  rw [List.map_cons, List.nodup_cons] at hnodup
  refine ⟨hnodup.2, fun q hq => ?_⟩
  obtain ⟨user, huser, hid⟩ := hall q (List.mem_cons_of_mem _ hq)
  have hne : q.peer ≠ p.peer := fun heq => hnodup.1 (heq ▸ List.mem_map_of_mem hq)
  exact ⟨user, List.mem_filter.mpr ⟨huser, by simpa [hid] using hne⟩, hid⟩

/-- Distinct users of the list are all found, with the data they were listed with. -/
theorem collect_of_listed {P : Type} {convert : List User → P → Option (Participant × List User)}
    {raw : P → RawParticipant} (hconvert : ∀ users p, convert users p = fromRaw users (raw p)) :
    ∀ {ps : List P} {users : List User}, Listed users (ps.map raw) →
      collect convert users ps = some ((ps.map raw).filterMap (participantOf users)) ∧
        ((ps.map raw).filterMap (participantOf users)).length = ps.length := by
  intro ps
  induction ps with
  | nil => exact fun _ => ⟨rfl, rfl⟩
  | cons p ps ih =>
    intro users h
    rw [List.map_cons] at h
    obtain ⟨hrest, hlen⟩ := ih (listed_tail h)
    obtain ⟨user, huser, hid⟩ := h.2 _ List.mem_cons_self
    obtain ⟨found, hfound⟩ : ∃ found, get users (raw p).peer = some found := by
      rw [← Option.isSome_iff_exists, get, List.find?_isSome]
      exact ⟨user, List.mem_reverse.mpr huser, by simpa using hid⟩
    have hsame : (ps.map raw).filterMap (participantOf (remove users (raw p).peer)) =
        (ps.map raw).filterMap (participantOf users) := by
      refine List.filterMap_congr fun q hq => ?_
      have hnodup := h.1
      rw [List.map_cons, List.nodup_cons] at hnodup
      have hne : q.peer ≠ (raw p).peer := fun heq => hnodup.1 (heq ▸ List.mem_map_of_mem hq)
      rw [participantOf, participantOf, get_remove hne]
    have hhead : participantOf users (raw p) = some ⟨found, (raw p).role⟩ := by
      rw [participantOf, hfound]
      rfl
    rw [hsame] at hrest hlen
    rw [List.map_cons, List.filterMap_cons_some hhead, List.length_cons, List.length_cons, hlen, collect,
      hconvert, fromRaw, hfound]
    exact ⟨by simp [hrest], rfl⟩

inductive ChatParticipants where
  | forbidden (selfParticipant : Option ChatParticipant)
  | participants (participants : List ChatParticipant)

inductive FullChatReply where
  | full (participants : ChatParticipants) (users : List User)
  | channelFull
  | communityFull
  | failed

inductive ChannelReply where
  | participants (count : Int32) (participants : List ChannelParticipant) (users : List User)
  | notModified
  | failed

/-- The server's answers, in the order it is asked. -/
structure Server where
  getFullChat : Nat → FullChatReply
  getParticipants : Nat → ChannelReply

structure GetParticipants where
  offset : Int32
  limit : Nat
  hash : Int

inductive ParticipantIter where
  | empty
  | chat (chatId : Int) (buffer : List Participant) (total : Option Nat)
  | channel (iter : IterBuffer GetParticipants Participant)

def ParticipantIter.new (peer : PeerKind) (chatId : Int) : ParticipantIter :=
  match peer with
  | .channel => .channel (.fromRequest ⟨0, 0, 0⟩)
  | .chat => .chat chatId [] none
  | .user => .empty

def asUsize (count : Int32) : Nat := (count.toInt % 2 ^ 64).toNat

/-- The next offset, if the build does not panic for an overflow. -/
def addOffset (overflowChecks : Bool) (offset : Int32) (len : Nat) : Option Int32 :=
  if overflowChecks ∧ offset.toInt + (Int32.ofNat len).toInt ≠ (offset + Int32.ofNat len).toInt then none
  else some (offset + Int32.ofNat len)

/-- An iterator, with how often the server was asked. -/
structure State where
  iter : ParticipantIter
  asked : Nat

section

variable (overflowChecks : Bool) (server : Server)

/-- Nothing stands for a panic; the inner result is missing when the server reports an error. -/
def fillBuffer (s : State) : Option (Option Nat × State) :=
  match s.iter with
  | .empty => some (some 0, s)
  | .chat chatId buffer total =>
    if buffer ≠ [] then none
    else match server.getFullChat s.asked with
      | .failed => some (none, ⟨s.iter, s.asked + 1⟩)
      | .channelFull => none
      | .communityFull => none
      | .full (.forbidden selfParticipant) users => do
        let buffer ← collect fromRawChat users selfParticipant.toList
        some (some buffer.length, ⟨.chat chatId buffer total, s.asked + 1⟩)
      | .full (.participants participants) users => do
        let buffer ← collect fromRawChat users participants
        some (some buffer.length, ⟨.chat chatId buffer (some buffer.length), s.asked + 1⟩)
  | .channel iter =>
    if iter.buffer ≠ [] then none
    else
      let limit := iter.determineLimit maxParticipantLimit
      match server.getParticipants s.asked with
      | .failed => some (none, ⟨.channel { iter with request.limit := limit }, s.asked + 1⟩)
      | .notModified => none
      | .participants count participants users => do
        let offset ← addOffset overflowChecks iter.request.offset participants.length
        let buffer ← collect fromRawChannel users participants
        some (some (asUsize count), ⟨.channel { iter with
          lastChunk := Nat.max participants.length users.length < limit
          request := { iter.request with offset := offset, limit := limit }
          buffer := buffer
          total := some (asUsize count) }, s.asked + 1⟩)

def total (s : State) : Option (Option Nat × State) :=
  match s.iter with
  | .empty => some (some 0, s)
  | .chat _ _ (some total) => some (some total, s)
  | .chat _ _ none => fillBuffer overflowChecks server s
  | .channel iter =>
    match iter.total with
    | some total => some (some total, s)
    | none => fillBuffer overflowChecks server s

/-- The end of `next`, once the buffer has been filled where it had to be. -/
def State.pop (s : State) : Option Participant × State :=
  match s.iter with
  | .empty => (none, s)
  | .chat chatId buffer total =>
    (buffer.head?, { s with iter := if buffer.tail = [] then .empty else .chat chatId buffer.tail total })
  | .channel iter => (iter.popItem.1, { s with iter := .channel iter.popItem.2 })

/-- The buffer is filled, and an error of the server returned. -/
def fillAndPop (s : State) : Option (Option (Option Participant) × State) := do
  match ← fillBuffer overflowChecks server s with
  | (none, s) => some (none, s)
  | (some _, s) => some (some s.pop.1, s.pop.2)

def next (s : State) : Option (Option (Option Participant) × State) :=
  match s.iter with
  | .empty => some (some s.pop.1, s.pop.2)
  | .chat _ buffer _ =>
    if buffer = [] then fillAndPop overflowChecks server s else some (some s.pop.1, s.pop.2)
  | .channel iter =>
    match iter.nextRaw with
    | some (item, iter) => some (some item, { s with iter := .channel iter })
    | none => fillAndPop overflowChecks server s

end

end Participants

end Grammers
