import Grammers.BoxReach

namespace Grammers

open StableSort

/-- A row of a valid channel with a position that is not negative. -/
def ChannelState.Valid (c : ChannelState) : Prop := isChannelId c.id = true ∧ 0 ≤ c.pts

/-- A row that gives the channel a position. -/
def ChannelState.Positions (c : ChannelState) : Prop := isChannelId c.id = true ∧ 0 < c.pts

def UpdatesState.Valid (state : UpdatesState) : Prop :=
  (0 ≤ state.pts ∧ 0 ≤ state.qts ∧ 0 ≤ state.seq ∧ 0 ≤ state.date) ∧
    ∀ c ∈ state.channels, c.Valid

/-- A secondary position without a primary one. -/
def UpdatesState.Orphaned (state : UpdatesState) : Prop := state.pts ≤ 0 ∧ 0 < state.qts

instance (state : UpdatesState) : Decidable state.Orphaned :=
  inferInstanceAs (Decidable (_ ∧ _))

/-- What saved state is normalized to: counters that are not negative, none of an account without a
primary position, and every valid channel with a position once, in ascending order, at the smallest
of its positions. -/
structure NormalForm (saved normal : UpdatesState) : Prop where
  pts : normal.pts = max saved.pts 0
  qts : normal.qts = if saved.Orphaned then 0 else max saved.qts 0
  date : normal.date = if saved.Orphaned then 0 else max saved.date 0
  seq : normal.seq = if saved.Orphaned then 0 else max saved.seq 0
  ascending : normal.channels.Pairwise fun a b => a.id < b.id
  channels : ∀ c, c ∈ normal.channels ↔ c ∈ saved.channels ∧ c.Positions ∧
    ∀ row ∈ saved.channels, row.id = c.id → row.Positions → c.pts ≤ row.pts

theorem max_zero_eq {a : Int32} (h : 0 ≤ a) : max a 0 = a := by
  show (if a ≤ 0 then 0 else a) = a
  split
  next hle => exact Int32.le_antisymm h hle
  next => rfl

theorem max_zero_of_neg {a : Int32} (h : a ≤ 0) : max a 0 = 0 := if_pos h

theorem zero_le_max (a : Int32) : 0 ≤ max a 0 := by
  show 0 ≤ (if a ≤ 0 then 0 else a)
  split
  next => decide
  next h => exact Int32.le_of_lt (Int32.not_le.mp h)

theorem lt_max_zero_iff {a : Int32} : 0 < max a 0 ↔ 0 < a := by
  show 0 < (if a ≤ 0 then 0 else a) ↔ 0 < a
  split
  next h => exact ⟨fun hlt => absurd hlt (by decide), fun hlt => absurd h (Int32.not_le.mpr hlt)⟩
  next => exact Iff.rfl

theorem min_le_left32 (a b : Int32) : min a b ≤ a := by
  show (if a ≤ b then a else b) ≤ a
  split
  next => exact Int32.le_refl a
  next h => exact Int32.le_of_lt (Int32.not_le.mp h)

theorem min_le_right32 (a b : Int32) : min a b ≤ b := by
  show (if a ≤ b then a else b) ≤ b
  split
  next h => exact h
  next => exact Int32.le_refl b

theorem min_eq_or32 (a b : Int32) : min a b = a ∨ min a b = b := by
  show (if a ≤ b then a else b) = a ∨ (if a ≤ b then a else b) = b
  split
  next => exact Or.inl rfl
  next => exact Or.inr rfl

namespace NormalForm

variable {saved normal normal' : UpdatesState}

theorem unique (h : NormalForm saved normal) (h' : NormalForm saved normal') : normal = normal' := by
  have hchannels : normal.channels = normal'.channels := by
    have hirr : Std.Irrefl fun a b : ChannelState => a.id < b.id := ⟨fun a => lt_irrefl a.id⟩
    have hasymm : Std.Asymm fun a b : ChannelState => a.id < b.id := ⟨fun _ _ h => h.not_gt⟩
    exact List.Pairwise.eq_of_mem_iff h.ascending h'.ascending
      fun {c} => (h.channels c).trans (h'.channels c).symm
  cases normal
  cases normal'
  rw [UpdatesState.mk.injEq]
  exact ⟨h.pts.trans h'.pts.symm, h.qts.trans h'.qts.symm, h.date.trans h'.date.symm,
    h.seq.trans h'.seq.symm, hchannels⟩

/-- The order of the rows does not matter. -/
theorem perm (h : NormalForm saved normal) {rows : List ChannelState}
    (hperm : rows.Perm saved.channels) : NormalForm { saved with channels := rows } normal where
  pts := h.pts
  qts := h.qts
  date := h.date
  seq := h.seq
  ascending := h.ascending
  channels c := by
    rw [h.channels c]
    simp only [hperm.mem_iff]

/-- A normal form is its own normal form. -/
theorem idem (h : NormalForm saved normal) : NormalForm normal normal := by
  have hpts : 0 ≤ normal.pts := h.pts ▸ zero_le_max _
  have hif : ∀ {a : Int32}, 0 ≤ (if saved.Orphaned then 0 else max a 0) := by
    intro a
    split
    · decide
    · exact zero_le_max a
  have horphan : ¬normal.Orphaned := by
    rintro ⟨hle, hlt⟩
    rw [h.qts] at hlt
    split at hlt
    next => exact absurd hlt (by decide)
    next hnot =>
      refine hnot ⟨?_, lt_max_zero_iff.mp hlt⟩
      rw [h.pts] at hle
      exact Int32.not_lt.mp fun hpos => Int32.not_le.mpr (lt_max_zero_iff.mpr hpos) hle
  refine ⟨(max_zero_eq hpts).symm, ?_, ?_, ?_, h.ascending, fun c => ⟨fun hc => ?_, And.left⟩⟩
  · rw [if_neg horphan, max_zero_eq (h.qts ▸ hif)]
  · rw [if_neg horphan, max_zero_eq (h.date ▸ hif)]
  · rw [if_neg horphan, max_zero_eq (h.seq ▸ hif)]
  · obtain ⟨-, hpositions, hleast⟩ := (h.channels c).mp hc
    exact ⟨hc, hpositions, fun row hrow hid hpos =>
      hleast row ((h.channels row).mp hrow).1 hid hpos⟩

end NormalForm

namespace MessageBoxes

variable {now : Instant} {saved : UpdatesState}

/-- A merged entry has the smallest position of its key. -/
theorem dedupEntries_least {earlier : LiveEntry} {rest : List LiveEntry}
    (h : Ascending LiveEntry.key (earlier :: rest)) : ∀ e ∈ dedupEntries earlier rest,
      (∃ e' ∈ earlier :: rest, e'.key = e.key ∧ e'.pts = e.pts) ∧
        ∀ e' ∈ earlier :: rest, e'.key = e.key → e.pts ≤ e'.pts := by
  induction rest generalizing earlier with
  | nil =>
    intro e he
    obtain rfl := List.mem_singleton.mp he
    refine ⟨⟨e, by simp, rfl, rfl⟩, fun e' he' _ => ?_⟩
    obtain rfl := List.mem_singleton.mp he'
    exact Int32.le_refl _
  | cons later rest ih =>
    obtain ⟨hle, hrest⟩ := List.pairwise_cons.mp h
    obtain ⟨hle', hrest'⟩ := List.pairwise_cons.mp hrest
    intro e he
    rw [dedupEntries] at he
    split at he
    next hk =>
      have hasc : Ascending LiveEntry.key
          ({ earlier with pts := min earlier.pts later.pts } :: rest) :=
        List.pairwise_cons.mpr ⟨fun e he => hle e (by simp [he]), hrest'⟩
      obtain ⟨⟨e', he', hkey, hpts⟩, hleast⟩ := ih hasc e he
      refine ⟨?_, fun e'' he'' hkey'' => ?_⟩
      · rcases List.mem_cons.mp he' with rfl | he'
        · rcases min_eq_or32 earlier.pts later.pts with hmin | hmin
          · exact ⟨earlier, by simp, hkey, hmin.symm.trans hpts⟩
          · exact ⟨later, by simp, hk.trans hkey, hmin.symm.trans hpts⟩
        · exact ⟨e', by simp [he'], hkey, hpts⟩
      · have hmerged := fun hkey => hleast _ List.mem_cons_self hkey
        rcases List.mem_cons.mp he'' with rfl | he''
        · exact Int32.le_trans (hmerged hkey'') (min_le_left32 _ _)
        · rcases List.mem_cons.mp he'' with rfl | he''
          · exact Int32.le_trans (hmerged (hk.symm.trans hkey'')) (min_le_right32 _ _)
          · exact hleast e'' (List.mem_cons_of_mem _ he'') hkey''
    next hk =>
      have hlt : ∀ e' ∈ later :: rest, earlier.key < e'.key := by
        intro e' he'
        have hfirst : earlier.key < later.key := lt_of_le_of_ne (hle later (by simp)) (Ne.symm hk)
        rcases List.mem_cons.mp he' with rfl | he'
        · exact hfirst
        · exact hfirst.trans_le (hle' e' he')
      rcases List.mem_cons.mp he with rfl | he
      · refine ⟨⟨e, by simp, rfl, rfl⟩, fun e' he' hkey => ?_⟩
        rcases List.mem_cons.mp he' with rfl | he'
        · exact Int32.le_refl _
        · exact absurd hkey (hlt e' he').ne'
      · obtain ⟨⟨e', he', hkey, hpts⟩, hleast⟩ := ih hrest e he
        refine ⟨⟨e', List.mem_cons_of_mem _ he', hkey, hpts⟩, fun e'' he'' hkey'' => ?_⟩
        rcases List.mem_cons.mp he'' with rfl | he''
        · exact absurd (hkey''.trans hkey.symm) (hlt e' he').ne
        · exact hleast e'' he'' hkey''

theorem dedupByKey_least {es : List LiveEntry} (h : Ascending LiveEntry.key es) :
    ∀ e ∈ dedupByKey es, (∃ e' ∈ es, e'.key = e.key ∧ e'.pts = e.pts) ∧
      ∀ e' ∈ es, e'.key = e.key → e.pts ≤ e'.pts := by
  cases es with
  | nil => exact fun e he => nomatch he
  | cons e es => exact dedupEntries_least h

/-- Sorted and merged, entries have under each key the smallest of its positions. -/
theorem lookup_merged_iff (rows : List LiveEntry) {k : Key} {pts : Int32} :
    (SortedSearch.lookup LiveEntry.key (dedupByKey (sortByKey LiveEntry.key rows)) k).map
        LiveEntry.pts = some pts ↔
      (∃ e ∈ rows, e.key = k ∧ e.pts = pts) ∧ ∀ e ∈ rows, e.key = k → pts ≤ e.pts := by
  have hperm := sortByKey_perm LiveEntry.key rows
  have hasc := sortByKey_ascending LiveEntry.key rows
  obtain ⟨hs, -, hkeys⟩ := dedupByKey_spec hasc
  have hleast := dedupByKey_least hasc
  generalize dedupByKey (sortByKey LiveEntry.key rows) = merged at hs hkeys hleast ⊢
  have hmerged : ∀ e, SortedSearch.lookup LiveEntry.key merged k = some e →
      (∃ e' ∈ rows, e'.key = k ∧ e'.pts = e.pts) ∧
        ∀ e' ∈ rows, e'.key = k → e.pts ≤ e'.pts := by
    intro e he
    obtain ⟨hmem, rfl⟩ := (SortedSearch.lookup_eq_some_iff hs).mp he
    obtain ⟨⟨e', he', hattained⟩, hle⟩ := hleast e hmem
    exact ⟨⟨e', hperm.subset he', hattained⟩, fun e'' he'' => hle e'' (hperm.symm.subset he'')⟩
  rw [Option.map_eq_some_iff]
  refine ⟨?_, fun ⟨⟨e, he, hk, hpts⟩, hle⟩ => ?_⟩
  · rintro ⟨e, he, rfl⟩
    exact hmerged e he
  · obtain ⟨e', he', hk'⟩ := hkeys e (hperm.symm.subset he)
    have hentry : SortedSearch.lookup LiveEntry.key merged k = some e' :=
      (SortedSearch.lookup_eq_some_iff hs).mpr ⟨he', hk'.trans hk⟩
    obtain ⟨⟨e'', he'', hk'', hpts''⟩, hle'⟩ := hmerged e' hentry
    refine ⟨e', hentry, Int32.le_antisymm ?_ ?_⟩
    · exact hpts ▸ hle' e he hk
    · exact hpts'' ▸ hle e'' he'' hk''

/-- An entry is loaded exactly for the smallest of the positions restored for its key. -/
theorem load_entry_iff {k : Key} {pts : Int32} :
    ((load saved now).entry k).map LiveEntry.pts = some pts ↔
      (∃ e ∈ restoredEntries (repair saved) (nextUpdatesDeadline now), e.key = k ∧ e.pts = pts) ∧
        ∀ e ∈ restoredEntries (repair saved) (nextUpdatesDeadline now), e.key = k → pts ≤ e.pts := by
  have hload : (load saved now).entries = dedupByKey (sortByKey LiveEntry.key
      (restoredEntries (repair saved) (nextUpdatesDeadline now))) := by
    simp only [load]
  rw [entry, hload]
  exact lookup_merged_iff _

/-! What the repairs come to. -/

theorem repairCounters_eq (state : UpdatesState) :
    repairCounters state =
      { state with
        pts := max state.pts 0, qts := max state.qts 0, date := max state.date 0,
        seq := max state.seq 0 } := by
  rw [repairCounters]
  split
  next => rfl
  next hno =>
    have hle : ∀ {a : Int32}, ¬a < noPts → max a 0 = a := fun h => max_zero_eq (Int32.not_lt.mp h)
    have hno := not_or.mp hno
    have hno' := not_or.mp hno.2
    have hno'' := not_or.mp hno'.2
    rw [hle hno.1, hle hno'.1, hle hno''.1, hle hno''.2]

theorem repair_eq (state : UpdatesState) :
    repair state =
      { pts := max state.pts 0
        qts := if state.Orphaned then 0 else max state.qts 0
        date := if state.Orphaned then 0 else max state.date 0
        seq := if state.Orphaned then 0 else max state.seq 0
        channels := state.channels.filter fun c => isChannelId c.id && decide (0 ≤ c.pts) } := by
  have horphan : (max state.pts 0 = noPts ∧ noPts < max state.qts 0) ↔ state.Orphaned := by
    refine and_congr ⟨fun h => ?_, max_zero_of_neg⟩ lt_max_zero_iff
    refine Int32.not_lt.mp fun hlt => ?_
    have hpos := lt_max_zero_iff.mpr hlt
    rw [h] at hpos
    exact absurd hpos (by decide)
  rw [repair, repairCounters_eq, repairChannels, repairAccount]
  simp only [horphan]
  by_cases h : state.Orphaned
  · simp only [if_pos h]
    rfl
  · simp only [if_neg h]
    rfl

theorem isChannelId_pos {id : Int} (h : isChannelId id = true) : 0 < id := by
  simp only [isChannelId, Bool.or_eq_true, Bool.and_eq_true, decide_eq_true_eq] at h
  omega

/-- The channel rows that are restored. -/
theorem mem_restored_channel {e : LiveEntry} {id : Int} (hk : e.key = .channel id) (d : Instant) :
    e ∈ restoredEntries (repair saved) d ↔
      ∃ c ∈ saved.channels, c.Positions ∧ c.id = id ∧ e = restored (.channel c.id) c.pts d := by
  rw [mem_restoredEntries, repair_eq]
  refine ⟨?_, ?_⟩
  · rintro (⟨-, rfl⟩ | ⟨-, rfl⟩ | ⟨c, hc, -, hpts, rfl⟩)
    · cases hk
    · cases hk
    · obtain ⟨hmem, hvalid⟩ := List.mem_filter.mp hc
      exact ⟨c, hmem, ⟨(Bool.and_eq_true_iff.mp hvalid).1, hpts⟩, Key.channel.inj hk, rfl⟩
  · rintro ⟨c, hc, ⟨hid, hpts⟩, -, rfl⟩
    refine Or.inr (Or.inr ⟨c, List.mem_filter.mpr ⟨hc, ?_⟩, isChannelId_pos hid, hpts, rfl⟩)
    rw [hid, Bool.true_and]
    exact decide_eq_true (Int32.le_of_lt hpts)

theorem load_channel_iff {id : Int} {pts : Int32} :
    ((load saved now).entry (.channel id)).map LiveEntry.pts = some pts ↔
      ⟨id, pts⟩ ∈ saved.channels ∧ (⟨id, pts⟩ : ChannelState).Positions ∧
        ∀ row ∈ saved.channels, row.id = id → row.Positions → pts ≤ row.pts := by
  rw [load_entry_iff]
  refine ⟨?_, ?_⟩
  · rintro ⟨⟨e, he, hk, rfl⟩, hleast⟩
    obtain ⟨⟨id', pts'⟩, hc, hpositions, rfl, rfl⟩ := (mem_restored_channel hk _).mp he
    exact ⟨hc, hpositions, fun row hrow hid hpos =>
      hleast _ ((mem_restored_channel (congrArg Key.channel hid) _).mpr
        ⟨row, hrow, hpos, hid, rfl⟩) (congrArg Key.channel hid)⟩
  · rintro ⟨hc, hpositions, hleast⟩
    refine ⟨⟨_, (mem_restored_channel rfl _).mpr ⟨_, hc, hpositions, rfl, rfl⟩, rfl, rfl⟩,
      fun e he hk => ?_⟩
    obtain ⟨row, hrow, hpos, hid, rfl⟩ := (mem_restored_channel hk _).mp he
    exact hleast row hrow hid hpos

/-- A counter that is zero has no entry, and reads as zero again. -/
theorem getD_load {k : Key} {pts : Int32} (hpts : 0 ≤ pts)
    (hrestored : ∀ e, e ∈ restoredEntries (repair saved) (nextUpdatesDeadline now) ∧ e.key = k ↔
      0 < pts ∧ e = restored k pts (nextUpdatesDeadline now)) :
    (((load saved now).entry k).map LiveEntry.pts).getD noPts = pts := by
  by_cases hpos : 0 < pts
  · have hentry : ((load saved now).entry k).map LiveEntry.pts = some pts := by
      refine load_entry_iff.mpr ⟨⟨_, ((hrestored _).mpr ⟨hpos, rfl⟩).1, rfl, rfl⟩, fun e he hk => ?_⟩
      obtain ⟨-, rfl⟩ := (hrestored e).mp ⟨he, hk⟩
      exact Int32.le_refl _
    rw [hentry, Option.getD_some]
  · have hnone : ((load saved now).entry k).map LiveEntry.pts = none := by
      refine Option.eq_none_iff_forall_ne_some.mpr fun p hp => ?_
      obtain ⟨⟨e, he, hk, -⟩, -⟩ := load_entry_iff.mp hp
      exact hpos ((hrestored e).mp ⟨he, hk⟩).1
    rw [hnone]
    exact Int32.le_antisymm hpts (Int32.not_lt.mp hpos)

theorem sessionState_pts (s : MessageBoxes) :
    s.sessionState.pts = ((s.entry .common).map LiveEntry.pts).getD noPts := rfl

theorem sessionState_qts (s : MessageBoxes) :
    s.sessionState.qts = ((s.entry .secondary).map LiveEntry.pts).getD noPts := rfl

theorem sessionState_ascending {s : MessageBoxes} (hs : s.Sorted) :
    s.sessionState.channels.Pairwise fun a b => a.id < b.id := by
  refine List.pairwise_filterMap.mpr (List.Pairwise.imp (fun {a b} hab c hc d hd => ?_) hs)
  split at hc
  next id hid =>
    split at hd
    next id' hid' =>
      cases hc
      cases hd
      have hlt : Key.rank (.channel id) < Key.rank (.channel id') := hid ▸ hid' ▸ hab
      have hlex := Prod.Lex.toLex_lt_toLex.mp hlt
      simpa using hlex
    next => cases hd
  next => cases hc

theorem mem_sessionState_channels {s : MessageBoxes} (hs : s.Sorted) {c : ChannelState} :
    c ∈ s.sessionState.channels ↔
      ((s.entry (.channel c.id)).map LiveEntry.pts) = some c.pts := by
  rw [Option.map_eq_some_iff]
  simp only [sessionState, List.mem_filterMap]
  refine ⟨?_, ?_⟩
  · rintro ⟨e, he, hc⟩
    split at hc
    next id hid =>
      cases hc
      exact ⟨e, (entry_eq_some_iff hs).mpr ⟨he, hid⟩, rfl⟩
    next => cases hc
  · rintro ⟨e, he, hpts⟩
    obtain ⟨hmem, hkey⟩ := (entry_eq_some_iff hs).mp he
    refine ⟨e, hmem, ?_⟩
    rw [hkey]
    simp only [hpts]

theorem load_pts (saved : UpdatesState) (now : Instant) :
    (load saved now).sessionState.pts = (repair saved).pts := by
  have hpts : 0 ≤ (repair saved).pts := by
    rw [repair_eq]
    exact zero_le_max _
  rw [sessionState_pts]
  refine getD_load hpts fun e => ?_
  have hmax : max (repair saved).pts noPts = (repair saved).pts := max_zero_eq hpts
  rw [mem_restoredEntries, hmax]
  refine ⟨?_, fun ⟨hpos, he⟩ => ⟨Or.inl ⟨hpos, he⟩, he ▸ rfl⟩⟩
  rintro ⟨h | ⟨-, rfl⟩ | ⟨c, -, -, -, rfl⟩, hk⟩
  · exact h
  · cases hk
  · cases hk

theorem load_qts (saved : UpdatesState) (now : Instant) :
    (load saved now).sessionState.qts = (repair saved).qts := by
  have hqts : 0 ≤ (repair saved).qts := by
    rw [repair_eq]
    simp only
    split
    · decide
    · exact zero_le_max _
  rw [sessionState_qts]
  refine getD_load hqts fun e => ?_
  rw [mem_restoredEntries]
  refine ⟨?_, fun ⟨hpos, he⟩ => ⟨Or.inr (Or.inl ⟨hpos, he⟩), he ▸ rfl⟩⟩
  rintro ⟨⟨-, rfl⟩ | h | ⟨c, -, -, -, rfl⟩, hk⟩
  · cases hk
  · exact h
  · cases hk

theorem load_normalForm (saved : UpdatesState) (now : Instant) :
    NormalForm saved (load saved now).sessionState := by
  obtain ⟨hs, -, -⟩ := load_entries saved now
  have hpts := load_pts saved now
  have hqts := load_qts saved now
  have hdate : (load saved now).sessionState.date = (repair saved).date := by
    simp only [sessionState, load]
  have hseq : (load saved now).sessionState.seq = (repair saved).seq := by
    simp only [sessionState, load]
  rw [repair_eq] at hpts hqts hdate hseq
  exact ⟨hpts, hqts, hdate, hseq, sessionState_ascending hs,
    fun c => (mem_sessionState_channels hs).trans load_channel_iff⟩

theorem load_of_normalForm {normal : UpdatesState} (h : NormalForm saved normal) (now : Instant) :
    (load normal now).sessionState = normal := (load_normalForm normal now).unique h.idem

theorem tryLoad_none_iff : tryLoad saved now = none ↔ ¬saved.Valid := by
  have hinvalid : (saved.pts < 0 ∨ saved.qts < 0 ∨ saved.seq < 0 ∨ saved.date < 0 ∨
      saved.channels.any (fun c => !isChannelId c.id || decide (c.pts < 0)) = true) ↔
      ¬saved.Valid := by
    simp only [UpdatesState.Valid, ChannelState.Valid, List.any_eq_true, Bool.or_eq_true,
      Bool.not_eq_true', decide_eq_true_eq, ← Int32.not_le, Classical.not_and_iff_not_or_not,
      not_forall, exists_prop, Bool.not_eq_true, or_assoc]
  rw [← hinvalid, tryLoad]
  split
  next h => exact ⟨fun _ => h, fun _ => rfl⟩
  next h => exact ⟨nofun, fun h' => absurd h' h⟩

/-- Saved state is normalized when it is loaded, once and for all and whatever the order of its
rows; it is refused instead exactly when some of it is invalid. -/
theorem load_normalizes (saved : UpdatesState) (now : Instant) :
    NormalForm saved (load saved now).sessionState ∧
      (∀ normal, NormalForm saved normal → ∀ later, (load normal later).sessionState = normal) ∧
      (∀ later, (load (load saved now).sessionState later).sessionState =
        (load saved now).sessionState) ∧
      (∀ rows, rows.Perm saved.channels → ∀ later,
        (load { saved with channels := rows } later).sessionState = (load saved now).sessionState) ∧
      (tryLoad saved now = none ↔ ¬saved.Valid) ∧
      (saved.Valid → tryLoad saved now = some (load saved now)) := by
  have hnormal := load_normalForm saved now
  refine ⟨hnormal, fun normal h later => load_of_normalForm h later,
    fun later => load_of_normalForm hnormal later, fun rows hrows later => ?_, tryLoad_none_iff,
    fun hvalid => ?_⟩
  · exact (load_normalForm _ later).unique (hnormal.perm hrows)
  · have hsome : tryLoad saved now ≠ none := fun h => tryLoad_none_iff.mp h hvalid
    rw [tryLoad] at hsome ⊢
    split
    next h => exact absurd (if_pos h) hsome
    next => rfl

end MessageBoxes

end Grammers
