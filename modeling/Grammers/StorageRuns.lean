import Grammers.StorageAgreement

namespace Grammers

/-! Options of datacenters in the table and in the cache. -/

namespace DcOption

def withoutFlow (option : DcOption) : DcOption := { option with ipv6 := option.ipv6.withoutFlow }

theorem lookup_collect (options : List DcOption) (dc : Int32) :
    (collect options).lookup dc = options.find? fun option => option.id = dc := by
  unfold collect
  rw [AList.lookup_to_alist]
  induction options with
  | nil => rfl
  | cons option rest ih =>
    rw [List.map_cons]
    by_cases hid : option.id = dc
    · subst hid
      simp
    · rw [List.dlookup_cons_ne _ _ (Ne.symm hid), List.find?_cons_of_neg (by simpa using hid), ih]

/-- A row against the option that is cached. -/
def Stored {τ : Type} (text : AddressText τ) (id : Int32) (row : DcOptionRow τ)
    (option : DcOption) : Prop :=
  ∃ kept : DcOption, kept.id = id ∧ row = Database.optionRow text kept ∧
    kept.withoutFlow = option.withoutFlow

end DcOption

namespace AddressText.Lawful

variable {τ : Type} {text : AddressText τ}

theorem readOption_optionRow (htext : text.Lawful) (option : DcOption) :
    Database.readOption text option.id (Database.optionRow text option) =
      some option.withoutFlow := by
  unfold Database.readOption Database.optionRow
  simp only [htext.parseV4_showV4, htext.parseV6_showV6, Option.bind_eq_bind, Option.bind_some]
  cases hkey : option.authKey with
  | none => simp [DcOption.withoutFlow, hkey]
  | some key => simp [DcOption.withoutFlow, hkey, key.2]

theorem readOption_stored (htext : text.Lawful) {id : Int32} {row : DcOptionRow τ}
    {option : DcOption} (h : DcOption.Stored text id row option) :
    Database.readOption text id row = some option.withoutFlow ∧ option.withoutFlow.id = id := by
  obtain ⟨kept, rfl, rfl, hkept⟩ := h
  rw [htext.readOption_optionRow, hkept]
  exact ⟨rfl, by rw [← hkept]; rfl⟩

/-- Every row is read, each under its own identifier. -/
theorem collect_readOption (htext : text.Lawful)
    (entries : List (Sigma fun _ : Int32 => DcOptionRow τ))
    (h : ∀ e ∈ entries, ∃ option, DcOption.Stored text e.1 e.2 option) :
    ∃ options, entries.mapM (fun e => Database.readOption text e.1 e.2) = some options ∧
      ∀ id, (DcOption.collect options).lookup id =
        (entries.dlookup id).bind (Database.readOption text id) := by
  induction entries with
  | nil => exact ⟨[], rfl, fun id => rfl⟩
  | cons e rest ih =>
    obtain ⟨id, row⟩ := e
    obtain ⟨option, hstored⟩ := h ⟨id, row⟩ (by simp)
    obtain ⟨options, hoptions, hlookup⟩ := ih fun e he => h e (by simp [he])
    obtain ⟨hread, hid⟩ := htext.readOption_stored hstored
    refine ⟨option.withoutFlow :: options, by simp [List.mapM_cons, hread, hoptions], ?_⟩
    intro other
    rw [DcOption.lookup_collect]
    by_cases hother : id = other
    · subst hother
      simp [hid, hread]
    · rw [List.find?_cons_of_neg (by simpa [hid] using hother), ← DcOption.lookup_collect, hlookup,
        List.dlookup_cons_ne _ _ (Ne.symm hother)]

end AddressText.Lawful

namespace MemorySession

theorem find_replaceStored (stored : StoredDcOption) (options : List StoredDcOption) (id : Int32) :
    (replaceStored stored options).find? (fun other => other.key = id) =
      if stored.key = id then some stored else options.find? fun other => other.key = id := by
  induction options with
  | nil => by_cases hid : stored.key = id <;> simp [replaceStored, hid]
  | cons other rest ih =>
    unfold replaceStored
    split
    next hkey =>
      by_cases hid : stored.key = id
      · simp [hid]
      · simp [hid, hkey ▸ hid]
    next hkey =>
      by_cases hid : other.key = id
      · have hne : ¬stored.key = id := fun h => hkey (hid.trans h.symm)
        simp [hid, hne]
      · rw [List.find?_cons_of_neg (by simpa using hid), ih,
          List.find?_cons_of_neg (by simpa using hid)]

theorem dcOption_setDcOption (s : MemorySession) (option : DcOption) (id : Int32) :
    (s.setDcOption option).dcOption id = if option.id = id then some option else s.dcOption id := by
  unfold dcOption setDcOption
  rw [find_replaceStored]
  split <;> rfl

end MemorySession

namespace SqliteSession

variable {τ : Type} {text : AddressText τ}

theorem dcOption_setDcOption (s : SqliteSession τ) (option : DcOption) (id : Int32) :
    (s.setDcOption text option).dcOption id =
      if option.id = id then some option else s.dcOption id := by
  unfold dcOption setDcOption
  by_cases hid : option.id = id
  · subst hid
    simp
  · rw [AList.lookup_insert_ne (Ne.symm hid), if_neg hid]

end SqliteSession

/-- Both sessions know the same options, and each that is cached is in the table. -/
structure OptionsHold {τ : Type} (text : AddressText τ) (m : MemorySession)
    (s : SqliteSession τ) : Prop where
  same : ∀ id, (m.dcOption id).map DcOption.withoutFlow = (s.dcOption id).map DcOption.withoutFlow
  rows : ∀ id, Option.Rel (DcOption.Stored text id) (s.database.dcOption.lookup id)
    (s.dcOptions.lookup id)

namespace OptionsHold

variable {τ : Type} {text : AddressText τ} {m : MemorySession} {s : SqliteSession τ}

theorem setDcOption (h : OptionsHold text m s) (option : DcOption) :
    OptionsHold text (m.setDcOption option) (s.setDcOption text option) where
  same id := by
    rw [m.dcOption_setDcOption, s.dcOption_setDcOption]
    split
    · rfl
    · exact h.same id
  rows id := by
    show Option.Rel _ ((s.database.dcOption.insert option.id _).lookup id)
      ((s.dcOptions.insert option.id option).lookup id)
    by_cases hid : option.id = id
    · subst hid
      rw [AList.lookup_insert, AList.lookup_insert]
      exact Option.Rel.some ⟨option, rfl, rfl, rfl⟩
    · rw [AList.lookup_insert_ne (Ne.symm hid), AList.lookup_insert_ne (Ne.symm hid)]
      exact h.rows id

theorem of_row (h : OptionsHold text m s) {id : Int32} {row : DcOptionRow τ}
    (hrow : s.database.dcOption.lookup id = some row) :
    ∃ option, s.dcOptions.lookup id = some option ∧ DcOption.Stored text id row option :=
  (hrow ▸ h.rows id).of_some_left

theorem of_no_row (h : OptionsHold text m s) {id : Int32}
    (hrow : s.database.dcOption.lookup id = none) : s.dcOptions.lookup id = none :=
  (hrow ▸ h.rows id).of_none_left

/-- The cache is read again from the table. -/
theorem reopen (htext : text.Lawful) (h : OptionsHold text m s) :
    ∃ s', SqliteSession.open text s.database = some s' ∧ s'.database = s.database ∧
      s'.homeDc = s.database.dcHome.head?.getD defaultDc ∧ OptionsHold text m s' := by
  obtain ⟨options, hoptions, hlookup⟩ := htext.collect_readOption s.database.dcOption.entries (by
    intro e he
    have hrow : s.database.dcOption.lookup e.1 = some e.2 :=
      AList.mem_lookup_iff.mpr he
    obtain ⟨option, -, hstored⟩ := h.of_row hrow
    exact ⟨option, hstored⟩)
  have hread : ∀ id, (DcOption.collect options).lookup id =
      (s.dcOptions.lookup id).map DcOption.withoutFlow := by
    intro id
    rw [hlookup]
    cases hrow : s.database.dcOption.lookup id with
    | none =>
      rw [show s.database.dcOption.entries.dlookup id = none from hrow, h.of_no_row hrow]
      rfl
    | some row =>
      obtain ⟨option, hoption, hstored⟩ := h.of_row hrow
      rw [show s.database.dcOption.entries.dlookup id = some row from hrow, hoption]
      exact (htext.readOption_stored hstored).1
  refine ⟨⟨s.database, s.database.dcHome.head?.getD defaultDc, DcOption.collect options⟩, ?_, rfl, rfl,
    ?_, ?_⟩
  · unfold SqliteSession.open
    simp [hoptions]
  · intro id
    rw [h.same id]
    unfold SqliteSession.dcOption
    rw [hread]
    cases s.dcOptions.lookup id with
    | none => rfl
    | some option => rfl
  · intro id
    show Option.Rel _ (s.database.dcOption.lookup id) ((DcOption.collect options).lookup id)
    rw [hread]
    cases hrow : s.database.dcOption.lookup id with
    | none =>
      rw [h.of_no_row hrow]
      exact Option.Rel.none
    | some row =>
      obtain ⟨option, hoption, kept, hid, hrow, hkept⟩ := h.of_row hrow
      rw [hoption]
      exact Option.Rel.some ⟨kept, hid, hrow, hkept⟩

end OptionsHold

/-! The saved update state. -/

namespace Database

/-- Channels with distinct identifiers are all inserted. -/
theorem foldlM_insertChannel (channels : List ChannelState) (table : HashMap Int Int32)
    (hnodup : (channels.map ChannelState.id).Nodup)
    (hfree : ∀ c ∈ channels, table.lookup c.id = none) :
    ∃ table', channels.foldlM insertChannel table = some table' ∧ ∀ id pts,
      table'.lookup id = some pts ↔ ⟨id, pts⟩ ∈ channels ∨ table.lookup id = some pts := by
  induction channels generalizing table with
  | nil => exact ⟨table, rfl, fun id pts => by simp⟩
  | cons c rest ih =>
    obtain ⟨hnew, hnodup⟩ := List.nodup_cons.mp hnodup
    have hinsert : insertChannel table c = some (table.insert c.id c.pts) := by
      simp [insertChannel, hfree c (by simp)]
    have hne : ∀ other ∈ rest, other.id ≠ c.id :=
      fun other hother heq => hnew (heq ▸ List.mem_map_of_mem hother)
    obtain ⟨table', htable, hlookup⟩ := ih (table.insert c.id c.pts) hnodup (by
      intro other hother
      rw [AList.lookup_insert_ne (hne other hother)]
      exact hfree other (by simp [hother]))
    refine ⟨table', by rw [List.foldlM_cons, hinsert]; exact htable, ?_⟩
    intro id pts
    rw [hlookup]
    by_cases hid : id = c.id
    · subst hid
      have hrest : (⟨c.id, pts⟩ : ChannelState) ∉ rest := fun h => hne _ h rfl
      rw [AList.lookup_insert, hfree c (by simp), List.mem_cons]
      simp only [hrest, Option.some.injEq, false_or, or_false, reduceCtorEq]
      cases c
      simp [eq_comm]
    · have hc : (⟨id, pts⟩ : ChannelState) ≠ c := fun h => hid (congrArg ChannelState.id h)
      rw [AList.lookup_insert_ne hid]
      simp [hc]

end Database

/-- The rows of the update state against the state that memory holds. -/
structure UpdatesHold {τ : Type} (updates : UpdatesState) (db : Database τ) : Prop where
  row : db.updateState.head?.getD ⟨0, 0, 0, 0⟩ =
    ⟨updates.pts, updates.qts, updates.date, updates.seq⟩
  channels : ∀ id pts, ⟨id, pts⟩ ∈ updates.channels ↔ db.channelState.lookup id = some pts

theorem UpdatesHold.setUpdateState {τ : Type} {m : MemorySession} {db : Database τ}
    (h : UpdatesHold m.updates db) (update : UpdateState)
    (hvalid : (StorageOp.setUpdateState update).Valid) :
    ∃ db', db.setUpdateState update = some db' ∧ UpdatesHold (m.setUpdateState update).updates db' ∧
      db'.dcHome = db.dcHome ∧ db'.dcOption = db.dcOption ∧ db'.peerInfo = db.peerInfo := by
  have hrow := h.row
  cases update with
  | all state =>
    obtain ⟨table, htable, hlookup⟩ := Database.foldlM_insertChannel state.channels ∅ hvalid
      fun c _ => rfl
    refine ⟨{ db with
      updateState := [⟨state.pts, state.qts, state.date, state.seq⟩], channelState := table },
      by simp [Database.setUpdateState, htable], ⟨rfl, ?_⟩, rfl, rfl, rfl⟩
    intro id pts
    show ⟨id, pts⟩ ∈ state.channels ↔ table.lookup id = some pts
    simp [hlookup]
  | primary pts date seq =>
    cases hstate : db.updateState with
    | nil =>
      have hqts : 0 = m.updates.qts := congrArg UpdateRow.qts (hstate ▸ hrow)
      exact ⟨{ db with updateState := [⟨pts, 0, date, seq⟩] },
        by simp only [Database.setUpdateState, hstate],
        ⟨congrArg (UpdateRow.mk pts · date seq) hqts, h.channels⟩, rfl, rfl, rfl⟩
    | cons row rows =>
      have hqts : row.qts = m.updates.qts := congrArg UpdateRow.qts (hstate ▸ hrow)
      exact ⟨{ db with updateState :=
          (row :: rows).map fun row => { row with pts := pts, date := date, seq := seq } },
        by simp only [Database.setUpdateState, hstate],
        ⟨congrArg (UpdateRow.mk pts · date seq) hqts, h.channels⟩, rfl, rfl, rfl⟩
  | secondary qts =>
    cases hstate : db.updateState with
    | nil =>
      have hrow : (⟨0, 0, 0, 0⟩ : UpdateRow) = _ := hstate ▸ hrow
      exact ⟨{ db with updateState := [⟨0, qts, 0, 0⟩] },
        by simp only [Database.setUpdateState, hstate],
        ⟨congrArg (fun row => { row with qts := qts }) hrow, h.channels⟩, rfl, rfl, rfl⟩
    | cons row rows =>
      have hrow : row = _ := hstate ▸ hrow
      exact ⟨{ db with updateState := (row :: rows).map fun row => { row with qts := qts } },
        by simp only [Database.setUpdateState, hstate],
        ⟨congrArg (fun row => { row with qts := qts }) hrow, h.channels⟩, rfl, rfl, rfl⟩
  | channel id pts =>
    refine ⟨_, rfl, ⟨hrow, ?_⟩, rfl, rfl, rfl⟩
    intro other otherPts
    show _ ∈ m.updates.channels.filter (fun c => c.id ≠ id) ++ [⟨id, pts⟩] ↔
      (db.channelState.insert id pts).lookup other = some otherPts
    by_cases hother : other = id
    · subst hother
      simp [eq_comm]
    · rw [AList.lookup_insert_ne hother, ← h.channels]
      simp [hother]

/-- Both sessions after the same operations, which cached these peers. -/
structure Simulates {τ : Type} (text : AddressText τ) (cached : List PeerInfo) (m : MemorySession)
    (s : SqliteSession τ) : Prop where
  home : m.homeDc = s.homeDc
  homeRow : s.database.dcHome.head?.getD defaultDc = s.homeDc
  options : OptionsHold text m s
  peers : PeersHold s.database.peerInfo m.peerInfos
  kinds : ∀ id, 1 ≤ id → m.kindAt id = PeerInfo.lastKind id cached
  updates : UpdatesHold m.updates s.database

namespace Simulates

variable {τ : Type} {text : AddressText τ} {cached : List PeerInfo} {m : MemorySession}
  {s : SqliteSession τ}

theorem cachePeer (h : Simulates text cached m s) {info : PeerInfo} (hinfo : info.Valid) :
    Simulates text (cached ++ [info]) (m.cachePeer info) (s.cachePeer info) where
  home := h.home
  homeRow := h.homeRow
  options := ⟨h.options.same, h.options.rows⟩
  peers := h.peers.cachePeer hinfo
  kinds id hid := by
    rw [m.kindAt_cachePeer h.peers hinfo hid, h.kinds id hid, PeerInfo.lastKind_concat]
  updates := ⟨h.updates.row, h.updates.channels⟩

theorem cachePeers (h : Simulates text cached m s) {infos : List PeerInfo}
    (hinfos : ∀ info ∈ infos, info.Valid) :
    Simulates text (cached ++ infos) (m.cachePeers infos) (s.cachePeers infos) := by
  rw [m.cachePeers_eq_foldl, s.cachePeers_eq_foldl]
  induction infos generalizing cached m s with
  | nil => simpa using h
  | cons info infos ih =>
    have hnext := ih (h.cachePeer (hinfos info (by simp))) fun other hother =>
      hinfos other (by simp [hother])
    rw [List.append_assoc] at hnext
    exact hnext

theorem setHomeDcId (h : Simulates text cached m s) (dcId : Int32) :
    Simulates text cached (m.setHomeDcId dcId) (s.setHomeDcId dcId) :=
  ⟨rfl, rfl, ⟨h.options.same, h.options.rows⟩, h.peers, h.kinds,
    ⟨h.updates.row, h.updates.channels⟩⟩

theorem setDcOption (h : Simulates text cached m s) (option : DcOption) :
    Simulates text cached (m.setDcOption option) (s.setDcOption text option) :=
  ⟨h.home, h.homeRow, h.options.setDcOption option, h.peers, h.kinds,
    ⟨h.updates.row, h.updates.channels⟩⟩

theorem setUpdateState (h : Simulates text cached m s) (update : UpdateState)
    (hvalid : (StorageOp.setUpdateState update).Valid) : ∃ s', s.setUpdateState update = some s' ∧
      Simulates text cached (m.setUpdateState update) s' := by
  obtain ⟨db, hdb, hupdates, hhome, hoption, hpeer⟩ := h.updates.setUpdateState update hvalid
  have hframe : (m.setUpdateState update).homeDc = m.homeDc ∧
      (m.setUpdateState update).dcOptions = m.dcOptions ∧
      (m.setUpdateState update).peerInfos = m.peerInfos := by
    cases update <;> exact ⟨rfl, rfl, rfl⟩
  obtain ⟨hmHome, hmOptions, hmPeers⟩ := hframe
  refine ⟨{ s with database := db }, by simp [SqliteSession.setUpdateState, hdb], ?_⟩
  refine ⟨hmHome.trans h.home, by rw [hhome, h.homeRow], ⟨?_, ?_⟩, ?_, ?_, hupdates⟩
  · intro id
    rw [show (m.setUpdateState update).dcOption id = m.dcOption id by
      rw [MemorySession.dcOption, hmOptions, MemorySession.dcOption], h.options.same id]
    rfl
  · intro id
    rw [hoption]
    exact h.options.rows id
  · rw [hpeer, hmPeers]
    exact h.peers
  · intro id hid
    rw [MemorySession.kindAt, hmPeers]
    exact h.kinds id hid

theorem reopen (htext : text.Lawful) (h : Simulates text cached m s) :
    ∃ s', SqliteSession.open text s.database = some s' ∧ Simulates text cached m s' := by
  obtain ⟨s', hopen, hdatabase, hhome, hoptions⟩ := h.options.reopen htext
  have hhome : s'.homeDc = s.homeDc := hhome.trans h.homeRow
  exact ⟨s', hopen, h.home.trans hhome.symm, by rw [hdatabase, hhome, h.homeRow], hoptions,
    by rw [hdatabase]; exact h.peers, h.kinds, by rw [hdatabase]; exact h.updates⟩

/-- One operation on both sides. -/
theorem step (htext : text.Lawful) (h : Simulates text cached m s) {op : StorageOp}
    (hop : op.Valid) : ∃ s', op.onSqlite text s = some s' ∧
      Simulates text (cached ++ op.peers) (op.onMemory m) s' := by
  have hcached : cached ++ [] = cached := List.append_nil cached
  cases op with
  | setHomeDcId dcId => exact ⟨_, rfl, hcached.symm ▸ h.setHomeDcId dcId⟩
  | setDcOption option => exact ⟨_, rfl, hcached.symm ▸ h.setDcOption option⟩
  | cachePeer peer => exact ⟨_, rfl, h.cachePeer hop⟩
  | cachePeers peers => exact ⟨_, rfl, h.cachePeers hop⟩
  | setUpdateState update =>
    obtain ⟨s', hs', hsim⟩ := h.setUpdateState update hop
    exact ⟨s', hs', hcached.symm ▸ hsim⟩
  | reopen =>
    obtain ⟨s', hs', hsim⟩ := h.reopen htext
    exact ⟨s', hs', hcached.symm ▸ hsim⟩

theorem runOps (htext : text.Lawful) (h : Simulates text cached m s) (ops : List StorageOp)
    (hops : ∀ op ∈ ops, op.Valid) : ∃ s', ops.foldlM (StorageOp.onSqlite text) s = some s' ∧
      Simulates text (cached ++ ops.flatMap StorageOp.peers) (ops.foldl StorageOp.onMemory m) s' := by
  induction ops generalizing cached m s with
  | nil => exact ⟨s, rfl, by simpa using h⟩
  | cons op ops ih =>
    obtain ⟨s₁, hs₁, h₁⟩ := h.step htext (hops op (by simp))
    obtain ⟨s', hs', h'⟩ := ih h₁ fun other hother => hops other (by simp [hother])
    refine ⟨s', by rw [List.foldlM_cons, hs₁]; exact hs', ?_⟩
    rw [List.append_assoc] at h'
    exact h'

end Simulates

theorem simulates_fresh {τ : Type} (text : AddressText τ) :
    ∃ s, SqliteSession.open text .empty = some s ∧
      Simulates text [] (MemorySession.ofData .default) s := by
  refine ⟨⟨.empty, defaultDc, DcOption.collect []⟩, rfl, rfl, rfl, ⟨?_, ?_⟩, ?_, ?_, rfl, ?_⟩
  · intro id
    rw [MemorySession.dcOption_ofData]
    show ((DcOption.collect knownDcOptions).lookup id).map _ = _
    rw [DcOption.lookup_collect]
    rfl
  · intro id
    exact Option.Rel.none
  · intro id
    exact Option.Rel.none
  · intro id _
    rfl
  · intro id pts
    exact ⟨nofun, nofun⟩

theorem simulates_run {τ : Type} {text : AddressText τ} (htext : text.Lawful) (ops : List StorageOp)
    (hops : ∀ op ∈ ops, op.Valid) : ∃ s, SqliteSession.run text ops = some s ∧
      Simulates text (ops.flatMap StorageOp.peers) (MemorySession.run ops) s := by
  obtain ⟨fresh, hfresh, h⟩ := simulates_fresh text
  obtain ⟨s, hs, h⟩ := h.runOps htext ops hops
  rw [List.nil_append] at h
  exact ⟨s, by rw [SqliteSession.run, hfresh]; exact hs, h⟩

end Grammers
