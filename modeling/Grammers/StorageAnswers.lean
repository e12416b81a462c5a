import Grammers.StorageRuns

namespace Grammers

namespace PeerInfo

/-- A flag that is not known is taken as unset. -/
def settled : PeerInfo → PeerInfo
  | .user id auth bot isSelf => .user id auth (some (bot.getD false)) (some (isSelf.getD false))
  | info => info

theorem settled_readBack {info : PeerInfo} (h : info.channelKind ≠ some .community) :
    info.readBack.settled = info.settled := by
  cases info with
  | user id auth bot isSelf => rcases bot with _ | _ | _ <;> rcases isSelf with _ | _ | _ <;> rfl
  | chat id => rfl
  | channel id auth kind =>
    rcases kind with _ | _ | _ | _ | _
    · rfl
    · rfl
    · rfl
    · rfl
    · exact absurd rfl h

theorem channelKind_of_isSelf {info : PeerInfo} (h : info.isSelf = true) :
    info.channelKind = none := by
  cases info with
  | user id auth bot isSelf => rfl
  | chat id => cases h
  | channel id auth kind => cases h

theorem of_lastKind {id : Int} {infos : List PeerInfo} {kind : ChannelKind}
    (h : lastKind id infos = some kind) : ∃ auth, .channel id auth (some kind) ∈ infos := by
  obtain ⟨info, hinfo, hkind⟩ := List.mem_filterMap.mp (List.mem_of_getLast? h)
  cases info with
  | user other auth bot isSelf => cases hkind
  | chat other => cases hkind
  | channel other auth otherKind =>
    have htold : (if other = id then otherKind else none) = some kind := hkind
    split at htold
    next heq =>
      subst heq htold
      exact ⟨auth, hinfo⟩
    next => cases htold

end PeerInfo

def MemorySession.AtMostOneSelf (s : MemorySession) : Prop :=
  ∀ id other info otherInfo, s.peerInfos.lookup id = some info →
    s.peerInfos.lookup other = some otherInfo → info.isSelf = true → otherInfo.isSelf = true →
    id = other

/-- Every query is answered alike by both sessions. -/
structure SameAnswers {τ : Type} (m : MemorySession) (s : SqliteSession τ) : Prop where
  homeDcId : m.homeDcId = s.homeDcId
  dcOption : ∀ id,
    (m.dcOption id).map DcOption.withoutFlow = (s.dcOption id).map DcOption.withoutFlow
  peer : ∀ id, id ≠ .selfUser →
    (m.peer id).map PeerInfo.settled = (s.peer id).map PeerInfo.settled
  selfPeer : m.AtMostOneSelf →
    (m.peer .selfUser).map PeerInfo.settled = (s.peer .selfUser).map PeerInfo.settled
  updatesState : { m.updatesState with channels := [] } = { s.updatesState with channels := [] }
  channels : ∀ c, c ∈ m.updatesState.channels ↔ c ∈ s.updatesState.channels

namespace Simulates

variable {τ : Type} {text : AddressText τ} {cached : List PeerInfo} {m : MemorySession}
  {s : SqliteSession τ}

theorem peer_eq (h : Simulates text cached m s) {id : PeerId} (hid : id ≠ .selfUser) :
    m.peer id = m.peerInfos.lookup id ∧
      s.peer id = (m.peerInfos.lookup id).map PeerInfo.readBack := by
  refine ⟨if_neg hid, ?_⟩
  have hdialog : id.botApiDialogId = some id.dialogId := if_pos hid
  simp only [SqliteSession.peer, hdialog]
  cases hinfo : m.peerInfos.lookup id with
  | none =>
    have hrow := h.peers id
    rw [hinfo] at hrow
    rw [hrow.of_none_right]
    rfl
  | some info =>
    obtain ⟨row, hrow, hhold⟩ := h.peers.of_lookup hinfo
    rw [hrow, Option.bind_some, hhold.fromRow]
    rfl

/-- The kind that a channel is held with is the last one that was told. -/
theorem channelKind_eq (h : Simulates text cached m s) {id : PeerId} {info : PeerInfo}
    (hinfo : m.peerInfos.lookup id = some info) :
    info.channelKind = none ∨ ∃ channel, info.channelKind = PeerInfo.lastKind channel cached := by
  obtain ⟨row, -, hvalid, hid, -⟩ := h.peers.of_lookup hinfo
  cases info with
  | user other auth bot isSelf => exact Or.inl rfl
  | chat other => exact Or.inl rfl
  | channel channel auth kind =>
    have hvalid : 1 ≤ channel ∧ channel ≤ 997852516352 ∨
      1002147483649 ≤ channel ∧ channel ≤ 3000000000000 := hvalid
    refine Or.inr ⟨channel, ?_⟩
    rw [← h.kinds channel (by omega), MemorySession.kindAt]
    rw [show PeerId.channelUnchecked channel = id from hid, hinfo]
    rfl

theorem selfPeer_eq (h : Simulates text cached m s) (hself : m.AtMostOneSelf) :
    (m.peer .selfUser).map PeerInfo.settled = (s.peer .selfUser).map PeerInfo.settled := by
  have hm : m.peer .selfUser = (m.peerInfos.entries.map Sigma.snd).find? PeerInfo.isSelf := if_pos rfl
  have hs : s.peer .selfUser = ((s.database.peerInfo.entries.map Sigma.snd).find? PeerRow.isSelf).bind
      (Database.peerFromRow .selfUser) := rfl
  -- A row that is marked belongs to a peer that memory holds as self.
  have hmarked : ∀ row ∈ s.database.peerInfo.entries.map Sigma.snd,
      row.isSelf = true →
      ∃ id info, m.peerInfos.lookup id = some info ∧ PeerRow.Holds id row info ∧
        info.isSelf = true := by
    intro row hrow hbit
    obtain ⟨⟨key, row⟩, hentry, rfl⟩ := List.mem_map.mp hrow
    obtain ⟨info, hinfo, hhold⟩ := h.peers.of_row (show s.database.peerInfo.lookup (PeerId.mk key).dialogId =
      some row from AList.mem_lookup_iff.mpr hentry)
    exact ⟨⟨key⟩, info, hinfo, hhold, hhold.isSelf ▸ hbit⟩
  rw [hm, hs]
  cases hfound : (s.database.peerInfo.entries.map Sigma.snd).find? PeerRow.isSelf with
  | none =>
    have hnone : (m.peerInfos.entries.map Sigma.snd).find? PeerInfo.isSelf = none := by
      rw [List.find?_eq_none]
      rintro info hinfo hinfoSelf
      obtain ⟨⟨key, info⟩, hentry, rfl⟩ := List.mem_map.mp hinfo
      obtain ⟨row, hrow, hhold⟩ := h.peers.of_lookup (AList.mem_lookup_iff.mpr hentry)
      have hmem : row ∈ s.database.peerInfo.entries.map Sigma.snd :=
        List.mem_map_of_mem (AList.mem_lookup_iff.mp hrow)
      exact List.find?_eq_none.mp hfound row hmem (hhold.isSelf ▸ hinfoSelf)
    rw [hnone]
    rfl
  | some row =>
    obtain ⟨id, info, hinfo, hhold, hinfoSelf⟩ :=
      hmarked row (List.mem_of_find?_eq_some hfound) (List.find?_some hfound)
    have hmem : info ∈ m.peerInfos.entries.map Sigma.snd :=
      List.mem_map_of_mem (AList.mem_lookup_iff.mp hinfo)
    cases hfirst : (m.peerInfos.entries.map Sigma.snd).find? PeerInfo.isSelf with
    | none => exact absurd hinfoSelf (List.find?_eq_none.mp hfirst info hmem)
    | some first =>
      obtain ⟨⟨key, first⟩, hentry, rfl⟩ := List.mem_map.mp (List.mem_of_find?_eq_some hfirst)
      have hkey := AList.mem_lookup_iff.mpr hentry
      obtain rfl := hself _ _ _ _ hinfo hkey hinfoSelf (List.find?_some hfirst)
      obtain rfl : info = first := Option.some.inj (hinfo.symm.trans hkey)
      have hchannel := PeerInfo.channelKind_of_isSelf hinfoSelf
      rw [Option.bind_some, hhold.fromRow_selfUser hinfoSelf, Option.map_some, Option.map_some,
        PeerInfo.settled_readBack (by rw [hchannel]; exact nofun)]

theorem sameAnswers (h : Simulates text cached m s)
    (hkinds : ∀ id, PeerInfo.lastKind id cached ≠ some .community) : SameAnswers m s where
  homeDcId := h.home
  dcOption := h.options.same
  peer id hid := by
    obtain ⟨hm, hs⟩ := h.peer_eq hid
    rw [hm, hs]
    cases hinfo : m.peerInfos.lookup id with
    | none => rfl
    | some info =>
      have hkind : info.channelKind ≠ some .community := by
        rcases h.channelKind_eq hinfo with hnone | ⟨channel, hchannel⟩
        · rw [hnone]
          exact nofun
        · rw [hchannel]
          exact hkinds channel
      exact congrArg some (PeerInfo.settled_readBack hkind).symm
  selfPeer := h.selfPeer_eq
  updatesState := by
    unfold SqliteSession.updatesState
    rw [h.updates.row]
    rfl
  channels c := by
    have hlookup := h.updates.channels c.id c.pts
    have hentry : s.database.channelState.lookup c.id = some c.pts ↔
        ⟨c.id, c.pts⟩ ∈ s.database.channelState.entries := AList.mem_lookup_iff
    refine hlookup.trans (hentry.trans ⟨fun h => List.mem_map.mpr ⟨_, h, rfl⟩, ?_⟩)
    intro hc
    obtain ⟨e, he, rfl⟩ := List.mem_map.mp hc
    exact he

/-- A community that is held in memory is not found in the table. -/
theorem not_sameAnswers (h : Simulates text cached m s) (hcached : ∀ info ∈ cached, info.Valid)
    {id : Int} (hkind : PeerInfo.lastKind id cached = some .community) : ¬SameAnswers m s := by
  intro hsame
  obtain ⟨cachedAuth, hmem⟩ := PeerInfo.of_lastKind hkind
  have hvalid := hcached _ hmem
  have hid : 1 ≤ id := by
    have hrange : 1 ≤ id ∧ id ≤ 997852516352 ∨ 1002147483649 ≤ id ∧ id ≤ 3000000000000 := hvalid
    omega
  have hself : PeerId.channelUnchecked id ≠ .selfUser := PeerInfo.id_ne_selfUser hvalid
  have hheld : m.kindAt id = some .community := (h.kinds id hid).trans hkind
  obtain ⟨info, hinfo, hchannel⟩ := Option.bind_eq_some_iff.mp hheld
  obtain ⟨row, -, hinfoValid, hinfoId, -⟩ := h.peers.of_lookup hinfo
  obtain ⟨auth, kind, rfl⟩ := PeerInfo.of_channelId hinfoValid hid hinfoId
  obtain rfl : kind = some .community := hchannel
  obtain ⟨hm, hs⟩ := h.peer_eq hself
  have hanswer := hsame.peer _ hself
  rw [hm, hs, hinfo] at hanswer
  cases hanswer

end Simulates

/-- Both storages are one session, for as long as the last kind that was told of a channel is not
a community; a list of peers is cached as its elements are. -/
theorem storages_agree_iff {τ : Type} {text : AddressText τ} (htext : text.Lawful)
    (ops : List StorageOp) (hops : ∀ op ∈ ops, op.Valid) :
    (∃ s, SqliteSession.run text ops = some s ∧ (SameAnswers (MemorySession.run ops) s ↔
      ∀ id, PeerInfo.lastKind id (ops.flatMap StorageOp.peers) ≠ some .community)) ∧
    (∀ (m : MemorySession) infos, m.cachePeers infos = infos.foldl MemorySession.cachePeer m) ∧
    ∀ (s : SqliteSession τ) infos, s.cachePeers infos = infos.foldl SqliteSession.cachePeer s := by
  obtain ⟨s, hs, h⟩ := simulates_run htext ops hops
  refine ⟨⟨s, hs, ?_, h.sameAnswers⟩, MemorySession.cachePeers_eq_foldl,
    SqliteSession.cachePeers_eq_foldl⟩
  intro hsame id hkind
  refine h.not_sameAnswers ?_ hkind hsame
  intro info hinfo
  obtain ⟨op, hop, hinfo⟩ := List.mem_flatMap.mp hinfo
  have hvalid := hops op hop
  cases op with
  | cachePeer peer =>
    obtain rfl : info = peer := List.mem_singleton.mp hinfo
    exact hvalid
  | cachePeers peers => exact hvalid info hinfo
  | setHomeDcId dcId => cases hinfo
  | setDcOption option => cases hinfo
  | setUpdateState update => cases hinfo
  | reopen => cases hinfo

/-- Text that shows every part of an address but its flow information. -/
def plainText : AddressText SocketAddr where
  showV4 address := .v4 address
  parseV4
    | .v4 address => some address
    | .v6 _ => none
  showV6 address := .v6 address.withoutFlow
  parseV6
    | .v4 _ => none
    | .v6 address => some address

theorem plainText_lawful : plainText.Lawful := ⟨fun _ => rfl, fun _ => rfl⟩

theorem storages_agree_megagroup :
    ∃ s, SqliteSession.run plainText [.cachePeer (.channel 1 (some 5) (some .megagroup)), .reopen] =
      some s ∧ SameAnswers
        (MemorySession.run [.cachePeer (.channel 1 (some 5) (some .megagroup)), .reopen]) s := by
  obtain ⟨⟨s, hs, hsame⟩, -⟩ := storages_agree_iff plainText_lawful
    [.cachePeer (.channel 1 (some 5) (some .megagroup)), .reopen]
    (by simp [StorageOp.Valid, PeerInfo.Valid])
  refine ⟨s, hs, hsame.mpr ?_⟩
  intro id
  by_cases hid : 1 = id <;>
    simp [PeerInfo.lastKind, PeerInfo.kindOf, StorageOp.peers, hid]

/-- The row of a community is read as that of a channel of no known kind. -/
theorem community_is_lost :
    ¬∃ s, SqliteSession.run plainText [.cachePeer (.channel 1 (some 5) (some .community))] = some s ∧
      SameAnswers (MemorySession.run [.cachePeer (.channel 1 (some 5) (some .community))]) s := by
  rintro ⟨s, hs, hsame⟩
  have hpeer := hsame.peer (.channelUnchecked 1) (by decide)
  cases hs
  exact absurd hpeer (by decide)

end Grammers
