import Grammers.SqliteStorage

namespace Option.Rel

variable {α β : Type} {r : α → β → Prop}

theorem of_none_left {y : Option β} (h : Option.Rel r Option.none y) : y = Option.none := by
  cases h
  rfl

theorem of_none_right {x : Option α} (h : Option.Rel r x Option.none) : x = Option.none := by
  cases h
  rfl

theorem of_some_left {a : α} {y : Option β} (h : Option.Rel r (Option.some a) y) :
    ∃ b, y = Option.some b ∧ r a b := by
  cases h with
  | some h => exact ⟨_, rfl, h⟩

theorem of_some_right {x : Option α} {b : β} (h : Option.Rel r x (Option.some b)) :
    ∃ a, x = Option.some a ∧ r a b := by
  cases h with
  | some h => exact ⟨_, rfl, h⟩

end Option.Rel

namespace Grammers

namespace PeerId

theorem kind_user {p : PeerId} (h : 1 ≤ p.dialogId ∧ p.dialogId ≤ 0xffffffffff) :
    p.kind = some .user :=
  if_pos (Or.inl h)

theorem eq_of_dialogId {p q : PeerId} (h : p.dialogId = q.dialogId) : p = q := by
  cases p
  cases q
  cases h
  rfl

theorem ne_selfUser {p : PeerId} (h : p.dialogId < 0) : p ≠ selfUser := by
  rintro rfl
  exact absurd h (by decide)

theorem kind_chat {p : PeerId} (h : -999999999999 ≤ p.dialogId ∧ p.dialogId ≤ -1) :
    p.kind = some .chat := by
  have hself := ne_selfUser (show p.dialogId < 0 by omega)
  have huser : ¬((1 ≤ p.dialogId ∧ p.dialogId ≤ 0xffffffffff) ∨ p = selfUser) :=
    not_or.mpr ⟨by omega, hself⟩
  unfold kind
  rw [if_neg huser, if_pos h]

theorem kind_channel {p : PeerId}
    (h : -1997852516352 ≤ p.dialogId ∧ p.dialogId ≤ -1000000000001 ∨
      -4000000000000 ≤ p.dialogId ∧ p.dialogId ≤ -2002147483649) : p.kind = some .channel := by
  have hself := ne_selfUser (show p.dialogId < 0 by omega)
  have huser : ¬((1 ≤ p.dialogId ∧ p.dialogId ≤ 0xffffffffff) ∨ p = selfUser) :=
    not_or.mpr ⟨by omega, hself⟩
  unfold kind
  rw [if_neg huser, if_neg (by omega), if_pos h]

end PeerId

namespace PeerInfo

def kind : PeerInfo → PeerKind
  | .user _ _ _ _ => .user
  | .chat _ => .chat
  | .channel _ _ _ => .channel

theorem kind_id {info : PeerInfo} (h : info.Valid) : info.id.kind = some info.kind := by
  cases info with
  | user id auth bot isSelf => exact PeerId.kind_user h
  | chat id =>
    obtain ⟨hlo, hhi⟩ : 1 ≤ id ∧ id ≤ 999999999999 := h
    exact PeerId.kind_chat (show -999999999999 ≤ -id ∧ -id ≤ -1 by omega)
  | channel id auth kind =>
    have h : 1 ≤ id ∧ id ≤ 997852516352 ∨ 1002147483649 ≤ id ∧ id ≤ 3000000000000 := h
    refine PeerId.kind_channel (show -1997852516352 ≤ -(1000000000000 + id) ∧
      -(1000000000000 + id) ≤ -1000000000001 ∨ -4000000000000 ≤ -(1000000000000 + id) ∧
      -(1000000000000 + id) ≤ -2002147483649 from ?_)
    omega

theorem id_ne_selfUser {info : PeerInfo} (h : info.Valid) : info.id ≠ .selfUser := by
  intro heq
  have hid := congrArg PeerId.dialogId heq
  cases info with
  | user id auth bot isSelf =>
    obtain ⟨hlo, hhi⟩ : 1 ≤ id ∧ id ≤ 0xffffffffff := h
    have hid : id = 2 ^ 40 := hid
    omega
  | chat id =>
    obtain ⟨hlo, hhi⟩ : 1 ≤ id ∧ id ≤ 999999999999 := h
    have hid : -id = 2 ^ 40 := hid
    omega
  | channel id auth kind =>
    have h : 1 ≤ id ∧ id ≤ 997852516352 ∨ 1002147483649 ≤ id ∧ id ≤ 3000000000000 := h
    have hid : -(1000000000000 + id) = 2 ^ 40 := hid
    omega

/-- What the row of a peer is read as: flags are known once one is set, and a community is not
told apart from an unknown kind. -/
def readBack : PeerInfo → PeerInfo
  | .user id auth bot isSelf =>
    if bot.getD false || isSelf.getD false then
      .user id auth (some (bot.getD false)) (some (isSelf.getD false))
    else .user id auth none none
  | .chat id => .chat id
  | .channel id auth kind => .channel id auth (kind.filter (· ≠ .community))

theorem peerFromRow_rowOf {info : PeerInfo} (h : info.Valid) :
    Database.peerFromRow info.id (Database.rowOf info) = some info.readBack := by
  rw [Database.peerFromRow, kind_id h]
  cases info with
  | user id auth bot isSelf =>
    rcases bot with _ | _ | _ <;> rcases isSelf with _ | _ | _ <;> rfl
  | chat id =>
    show some (PeerInfo.chat (- -id)) = _
    rw [neg_neg]
    rfl
  | channel id auth kind =>
    have hid : -(-(1000000000000 + id)) - 1000000000000 = id := by omega
    show some (PeerInfo.channel (-(-(1000000000000 + id)) - 1000000000000) _ _) = _
    rw [hid]
    rcases kind with _ | _ | _ | _ | _ <;> rfl

@[simp]
theorem id_readBack (info : PeerInfo) : info.readBack.id = info.id := by
  cases info with
  | user id auth bot isSelf => rcases bot with _ | _ | _ <;> rcases isSelf with _ | _ | _ <;> rfl
  | chat id => rfl
  | channel id auth kind => rfl

@[simp]
theorem isSelf_readBack (info : PeerInfo) : info.readBack.isSelf = info.isSelf := by
  cases info with
  | user id auth bot isSelf => rcases bot with _ | _ | _ <;> rcases isSelf with _ | _ | _ <;> rfl
  | chat id => rfl
  | channel id auth kind => rfl

theorem valid_readBack {info : PeerInfo} (h : info.Valid) : info.readBack.Valid := by
  cases info with
  | user id auth bot isSelf =>
    rcases bot with _ | _ | _ <;> rcases isSelf with _ | _ | _ <;> exact h
  | chat id => exact h
  | channel id auth kind => exact h

/-- Only users are marked as self in their rows. -/
theorem isSelf_rowOf (info : PeerInfo) :
    (Database.rowOf info).isSelf = info.isSelf := by
  cases info with
  | user id auth bot isSelf => rcases bot with _ | _ | _ <;> rcases isSelf with _ | _ | _ <;> rfl
  | chat id => rfl
  | channel id auth kind => rcases kind with _ | _ | _ | _ | _ <;> rfl

@[simp]
theorem id_extendInfo (info other : PeerInfo) : (info.extendInfo other).id = info.id := by
  unfold extendInfo
  split
  · split <;> rfl
  · split <;> rfl
  · rfl

theorem valid_extendInfo {info : PeerInfo} (h : info.Valid) (other : PeerInfo) :
    (info.extendInfo other).Valid := by
  unfold extendInfo
  split
  · split <;> exact h
  · split <;> exact h
  · exact h

@[simp]
theorem extendInfo_self (info : PeerInfo) : info.extendInfo info = info := by
  cases info with
  | user id auth bot isSelf => simp [extendInfo]
  | chat id => rfl
  | channel id auth kind => simp [extendInfo]

/-- What was lost in a row does not show in what is read after the next write. -/
theorem readBack_extendInfo (info other : PeerInfo) :
    (info.readBack.extendInfo other).readBack = (info.extendInfo other).readBack := by
  cases info with
  | user id auth bot isSelf =>
    cases other with
    | user newId newAuth newBot newSelf =>
      by_cases hid : id = newId
      · subst hid
        rcases bot with _ | _ | _ <;> rcases isSelf with _ | _ | _ <;>
          rcases newBot with _ | _ | _ <;> rcases newSelf with _ | _ | _ <;>
          simp [readBack, extendInfo]
      · rcases bot with _ | _ | _ <;> rcases isSelf with _ | _ | _ <;>
          simp [readBack, extendInfo, hid]
    | chat newId => rcases bot with _ | _ | _ <;> rcases isSelf with _ | _ | _ <;> rfl
    | channel newId newAuth newKind =>
      rcases bot with _ | _ | _ <;> rcases isSelf with _ | _ | _ <;> rfl
  | chat id => cases other <;> rfl
  | channel id auth kind =>
    cases other with
    | user newId newAuth newBot newSelf => rcases kind with _ | _ | _ | _ | _ <;> rfl
    | chat newId => rcases kind with _ | _ | _ | _ | _ <;> rfl
    | channel newId newAuth newKind =>
      by_cases hid : id = newId
      · subst hid
        rcases kind with _ | _ | _ | _ | _ <;> rcases newKind with _ | _ | _ | _ | _ <;>
          simp [readBack, extendInfo]
      · simp [readBack, extendInfo, hid]

end PeerInfo

/-- A row against what memory holds under the same identifier. -/
def PeerRow.Holds (id : PeerId) (row : PeerRow) (info : PeerInfo) : Prop :=
  info.Valid ∧ info.id = id ∧ ∃ stored : PeerInfo, stored.Valid ∧ row = Database.rowOf stored ∧
    stored.readBack = info.readBack

namespace PeerRow.Holds

variable {id : PeerId} {row : PeerRow} {info : PeerInfo}

theorem fromRow (h : Holds id row info) :
    Database.peerFromRow id row = some info.readBack := by
  obtain ⟨-, rfl, stored, hstored, rfl, hread⟩ := h
  have hid : stored.id = info.id := by rw [← stored.id_readBack, hread, info.id_readBack]
  rw [← hid, PeerInfo.peerFromRow_rowOf hstored, hread]

theorem isSelf (h : Holds id row info) : row.isSelf = info.isSelf := by
  obtain ⟨-, -, stored, -, rfl, hread⟩ := h
  rw [stored.isSelf_rowOf, ← stored.isSelf_readBack, hread, info.isSelf_readBack]

/-- A user can be read from its row without naming it. -/
theorem fromRow_selfUser (h : Holds id row info) (hself : info.isSelf = true) :
    Database.peerFromRow .selfUser row = some info.readBack := by
  obtain ⟨-, -, stored, -, rfl, hread⟩ := h
  have hstored : stored.isSelf = true := by
    rw [← stored.isSelf_readBack, hread, info.isSelf_readBack, hself]
  rw [← hread]
  cases stored with
  | user id auth bot isSelf => rcases bot with _ | _ | _ <;> rcases isSelf with _ | _ | _ <;> rfl
  | chat id => cases hstored
  | channel id auth kind => cases hstored

end PeerRow.Holds

/-- The rows of peers against those that memory holds. -/
def PeersHold (rows : HashMap Int PeerRow) (peers : HashMap PeerId PeerInfo) : Prop :=
  ∀ id, Option.Rel (PeerRow.Holds id) (rows.lookup id.dialogId) (peers.lookup id)

/-- What is written for a peer, after what its row held. -/
def Database.merged {τ : Type} (db : Database τ) (info : PeerInfo) : PeerInfo :=
  match (db.peerInfo.lookup info.id.dialogId).bind (peerFromRow info.id) with
  | some existing => existing.extendInfo info
  | none => info

namespace PeersHold

variable {τ : Type} {db : Database τ} {s : MemorySession} {info : PeerInfo}

theorem merged (h : PeersHold db.peerInfo s.peerInfos) (hinfo : info.Valid) :
    (db.merged info).id = info.id ∧ PeerRow.Holds info.id (Database.rowOf (db.merged info))
      (((s.peerInfos.lookup info.id).getD info).extendInfo info) := by
  have hhold := h info.id
  unfold Database.merged
  cases hrow : db.peerInfo.lookup info.id.dialogId with
  | none =>
    have hold := (hrow ▸ hhold).of_none_left
    simp only [hold, Option.bind_none, Option.getD_none, PeerInfo.extendInfo_self, true_and]
    exact ⟨hinfo, rfl, info, hinfo, rfl, rfl⟩
  | some row =>
    obtain ⟨old, hold, hhold⟩ := (hrow ▸ hhold).of_some_left
    simp only [hold, Option.bind_some, hhold.fromRow, Option.getD_some]
    obtain ⟨hvalid, hid, -⟩ := hhold
    exact ⟨by rw [PeerInfo.id_extendInfo, PeerInfo.id_readBack, hid],
      PeerInfo.valid_extendInfo hvalid info, by rw [PeerInfo.id_extendInfo, hid], _,
      PeerInfo.valid_extendInfo (PeerInfo.valid_readBack hvalid) info, rfl,
      old.readBack_extendInfo info⟩

theorem cachePeer (h : PeersHold db.peerInfo s.peerInfos) (hinfo : info.Valid) :
    PeersHold (db.cachePeer info).peerInfo (s.cachePeer info).peerInfos := by
  obtain ⟨hkey, hhold⟩ := h.merged hinfo
  intro id
  show Option.Rel _
    ((db.peerInfo.insert (db.merged info).id.dialogId (Database.rowOf (db.merged info))).lookup _)
    ((s.peerInfos.insert info.id _).lookup id)
  rw [hkey]
  by_cases hid : id = info.id
  · subst hid
    rw [AList.lookup_insert, AList.lookup_insert]
    exact Option.Rel.some hhold
  · have hdialog : id.dialogId ≠ info.id.dialogId := fun heq => hid (PeerId.eq_of_dialogId heq)
    rw [AList.lookup_insert_ne hdialog, AList.lookup_insert_ne hid]
    exact h id

theorem cachePeers (h : PeersHold db.peerInfo s.peerInfos) (infos : List PeerInfo)
    (hinfos : ∀ info ∈ infos, info.Valid) :
    PeersHold (infos.foldl Database.cachePeer db).peerInfo
      (infos.foldl MemorySession.cachePeer s).peerInfos := by
  induction infos generalizing db s with
  | nil => exact h
  | cons info infos ih =>
    exact ih (h.cachePeer (hinfos info (by simp))) fun other hother => hinfos other (by simp [hother])

theorem of_lookup {rows : HashMap Int PeerRow} {peers : HashMap PeerId PeerInfo}
    (h : PeersHold rows peers) {id : PeerId} (hinfo : peers.lookup id = some info) :
    ∃ row, rows.lookup id.dialogId = some row ∧ PeerRow.Holds id row info :=
  (hinfo ▸ h id).of_some_right

theorem of_row {rows : HashMap Int PeerRow} {peers : HashMap PeerId PeerInfo}
    (h : PeersHold rows peers) {id : PeerId} {row : PeerRow}
    (hrow : rows.lookup id.dialogId = some row) :
    ∃ info, peers.lookup id = some info ∧ PeerRow.Holds id row info :=
  (hrow ▸ h id).of_some_left

end PeersHold

/-! The kind of a channel, as far as the cached peers tell it. -/

namespace PeerInfo

def channelKind : PeerInfo → Option ChannelKind
  | .channel _ _ kind => kind
  | _ => none

/-- What is told of the kind of a channel. -/
def kindOf (id : Int) : PeerInfo → Option ChannelKind
  | .channel other _ kind => if other = id then kind else none
  | _ => none

/-- The last kind that was told of a channel. -/
def lastKind (id : Int) (infos : List PeerInfo) : Option ChannelKind :=
  (infos.filterMap (kindOf id)).getLast?

theorem lastKind_concat (id : Int) (infos : List PeerInfo) (info : PeerInfo) :
    lastKind id (infos ++ [info]) = (kindOf id info).or (lastKind id infos) := by
  unfold lastKind
  rw [List.filterMap_append]
  cases hkind : kindOf id info with
  | none => simp [hkind]
  | some kind => simp [hkind]

end PeerInfo

theorem PeerInfo.of_channelId {info : PeerInfo} (hinfo : info.Valid) {id : Int} (hid : 1 ≤ id)
    (h : info.id = .channelUnchecked id) : ∃ auth kind, info = .channel id auth kind := by
  have hdialog := congrArg PeerId.dialogId h
  cases info with
  | user other auth bot isSelf =>
    obtain ⟨hlo, -⟩ : 1 ≤ other ∧ other ≤ 0xffffffffff := hinfo
    have hdialog : other = -(1000000000000 + id) := hdialog
    omega
  | chat other =>
    obtain ⟨-, hhi⟩ : 1 ≤ other ∧ other ≤ 999999999999 := hinfo
    have hdialog : -other = -(1000000000000 + id) := hdialog
    omega
  | channel other auth kind =>
    have hdialog : -(1000000000000 + other) = -(1000000000000 + id) := hdialog
    obtain rfl : other = id := by omega
    exact ⟨auth, kind, rfl⟩

namespace MemorySession

/-- The kind that is held for a channel. -/
def kindAt (s : MemorySession) (id : Int) : Option ChannelKind :=
  (s.peerInfos.lookup (.channelUnchecked id)).bind PeerInfo.channelKind

theorem kindAt_cachePeer {rows : HashMap Int PeerRow} {s : MemorySession} {info : PeerInfo} {id : Int}
    (h : PeersHold rows s.peerInfos) (hinfo : info.Valid) (hid : 1 ≤ id) :
    (s.cachePeer info).kindAt id = (info.kindOf id).or (s.kindAt id) := by
  by_cases hkey : PeerId.channelUnchecked id = info.id
  · obtain ⟨auth, kind, rfl⟩ := PeerInfo.of_channelId hinfo hid hkey.symm
    have hkind : (PeerInfo.channel id auth kind).kindOf id = kind := if_pos rfl
    unfold kindAt cachePeer
    rw [hkey, AList.lookup_insert, hkind, Option.bind_some]
    cases hold : s.peerInfos.lookup (PeerInfo.channel id auth kind).id with
    | none => rw [Option.getD_none, PeerInfo.extendInfo_self, Option.bind_none, Option.or_none]; rfl
    | some old =>
      obtain ⟨row, -, hvalid, holdId, -⟩ := h.of_lookup hold
      obtain ⟨oldAuth, oldKind, rfl⟩ := PeerInfo.of_channelId hvalid hid holdId
      simp [PeerInfo.extendInfo, PeerInfo.channelKind]
  · have hkind : info.kindOf id = none := by
      cases info with
      | user other auth bot isSelf => rfl
      | chat other => rfl
      | channel other auth kind =>
        refine if_neg ?_
        rintro rfl
        exact hkey rfl
    unfold kindAt cachePeer
    rw [AList.lookup_insert_ne hkey, hkind, Option.none_or]

end MemorySession

namespace MemorySession

/-- A list is cached as its elements are, in order. -/
theorem cachePeers_eq_foldl (s : MemorySession) (infos : List PeerInfo) :
    s.cachePeers infos = infos.foldl cachePeer s := by
  induction infos generalizing s with
  | nil => rfl
  | cons info infos ih =>
    rw [List.foldl_cons, ← ih]
    unfold cachePeers cachePeer
    simp only [List.foldl_cons]
    cases s.peerInfos.lookup info.id with
    | none => simp
    | some old => simp

end MemorySession

namespace SqliteSession

theorem cachePeers_eq_foldl {τ : Type} (s : SqliteSession τ) (infos : List PeerInfo) :
    s.cachePeers infos = infos.foldl cachePeer s := by
  induction infos generalizing s with
  | nil => rfl
  | cons info infos ih =>
    rw [List.foldl_cons, ← ih]
    cases infos <;> rfl

end SqliteSession

end Grammers
