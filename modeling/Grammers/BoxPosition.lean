import Grammers.BoxChannelOps

namespace Grammers

open SortedSearch

/-- The same entries with the same positions, and the same date and sequence of the account. -/
structure SamePosition (s s' : MessageBoxes) : Prop where
  positions : ∀ k, (s'.entry k).map LiveEntry.pts = (s.entry k).map LiveEntry.pts
  date : s'.date = s.date
  seq : s'.seq = s.seq

namespace SamePosition

variable {s s' s'' : MessageBoxes} {e : LiveEntry} {k : Key} {c : Int} {now : Instant}

theorem refl (s : MessageBoxes) : SamePosition s s := ⟨fun _ => rfl, rfl, rfl⟩

theorem trans (h : SamePosition s s') (h' : SamePosition s' s'') : SamePosition s s'' :=
  ⟨fun k => (h'.positions k).trans (h.positions k), h'.date.trans h.date, h'.seq.trans h.seq⟩

theorem congr (h : SamePosition s s') (he : s''.entries = s'.entries) (hd : s''.date = s'.date)
    (hq : s''.seq = s'.seq) : SamePosition s s'' := by
  refine ⟨fun k => ?_, hd.trans h.date, hq.trans h.seq⟩
  rw [← h.positions, MessageBoxes.entry, MessageBoxes.entry, he]

theorem setEntry (hs : s.Sorted) (he : s.entry k = some e) (e' : LiveEntry)
    (hk : e'.key = e.key) (hp : e'.pts = e.pts) : SamePosition s (s.setEntry e') := by
  refine ⟨fun k' => ?_, rfl, rfl⟩
  rw [MessageBoxes.entry_setEntry hs, hk, MessageBoxes.entry_key hs he]
  split
  next hk' => rw [hk', he, Option.map_some, Option.map_some, hp]
  next => rfl

theorem tryEndGetDiff (h : s.Inv) (hr : s.tryEndGetDiff k now = .ok s') : SamePosition s s' := by
  cases hp : s.isGettingDiff k with
  | false =>
    rw [MessageBoxes.tryEndGetDiff_of_not_pending hp] at hr
    cases hr
    exact refl s
  | true =>
    obtain ⟨e, he, hpe⟩ := MessageBoxes.entry_of_isGettingDiff hp
    obtain ⟨s1, hr1, -, ⟨_, _, _, hs1⟩, -⟩ := MessageBoxes.tryEndGetDiff_eq h he hpe now
    obtain rfl := Except.ok.inj (hr.symm.trans hr1)
    rw [hs1]
    exact (setEntry h.sorted he (e.ended now) rfl rfl).congr rfl rfl rfl

theorem retryChannelAt (hs : s.Sorted) (he : s.entry k = some e) (failures : Nat)
    (beyond : List Update) (retryAt : Instant) :
    SamePosition s (s.retryChannelAt k failures beyond retryAt) := by
  rw [MessageBoxes.retryChannelAt_eq hs he]
  exact (setEntry hs he (e.backedOff failures beyond retryAt) rfl rfl).congr rfl rfl rfl

theorem retryChannelWithoutDelay (h : s.Inv) (c : Int) (now : Instant) :
    SamePosition s (s.retryChannelWithoutDelay c now) := by
  cases he : s.entry (.channel c) with
  | none =>
    rw [MessageBoxes.retryChannelWithoutDelay_of_none h he]
    exact refl s
  | some e =>
    rw [MessageBoxes.retryChannelWithoutDelay_eq h he]
    exact (setEntry h.sorted he (e.hurried now) rfl rfl).congr rfl rfl rfl

/-- A recovery that ends for issues of the server keeps the position that it started from. -/
theorem endChannelDifference (h : s.Good) (hc : s.channelInDiff = some c)
    (hr : s.endChannelDifference .temporaryServerIssues now = .ok s') : SamePosition s s' := by
  obtain ⟨e, he, hp, -⟩ := h.toInv.channelInDiff hc
  have hk : e.key = .channel c := h.entry_key he
  let e1 : LiveEntry := { e with possibleGap := none }
  have hset : (s.updateEntry (.channel c) fun entry => { entry with possibleGap := none }) =
      s.setEntry e1 := MessageBoxes.updateEntry_of_entry h.sorted he rfl
  have h1 : (s.setEntry e1).Inv := (h.clearGap he).toInv
  have he1 : (s.setEntry e1).entry (.channel c) = some e1 :=
    (MessageBoxes.entry_setEntry_of_key h.sorted e1 hk _).trans (if_pos rfl)
  obtain ⟨s2, hrun, h2, -, hentry⟩ := h1.tryEndGetDiff (.channel c) now
  have hsame2 := (setEntry h.sorted he e1 rfl rfl).trans (tryEndGetDiff h1 hrun)
  obtain ⟨e2, he2⟩ : ∃ e2, s2.entry (.channel c) = some e2 := by
    rw [hentry, if_pos rfl, he1]
    exact ⟨_, rfl⟩
  unfold MessageBoxes.endChannelDifference at hr
  simp only [hc, hset, hrun, bind, Except.bind, he2, MessageBoxes.scheduleChannelRetry,
    MessageBoxes.retainContiguousHeldUpdates_eq h2] at hr
  cases hr
  have hheld : ∀ held, SamePosition s { s2 with heldUpdates := held } :=
    fun held => hsame2.congr rfl rfl rfl
  refine (hheld _).trans (retryChannelAt (e := e2) ?_ ?_ _ _ _)
  · exact h2.sorted
  · exact he2

end SamePosition

/-- An entry of which nothing but its position is left. -/
def LiveEntry.bare (e : LiveEntry) : LiveEntry := .fresh e.key e.pts 0

theorem sessionState_bare (s : MessageBoxes) :
    { s with entries := s.entries.map LiveEntry.bare }.sessionState.channels =
      s.sessionState.channels :=
  List.filterMap_map

/-- The position as it is saved in a session. -/
theorem SamePosition.sessionState {s s' : MessageBoxes} (h : SamePosition s s') (hs : s.Sorted)
    (hs' : s'.Sorted) : s'.sessionState = s.sessionState := by
  have hbare : s'.entries.map LiveEntry.bare = s.entries.map LiveEntry.bare := by
    refine Sorted.ext (map_sorted hs' fun _ _ => rfl) (map_sorted hs fun _ _ => rfl) fun k => ?_
    rw [lookup_map (f := LiveEntry.bare) hs' fun _ _ => rfl,
      lookup_map (f := LiveEntry.bare) hs fun _ _ => rfl]
    have hk := h.positions k
    change (s'.entry k).map _ = (s.entry k).map _
    cases he : s.entry k with
    | none =>
      rw [he, Option.map_none, Option.map_eq_none_iff] at hk
      rw [hk]
    | some e =>
      rw [he] at hk
      obtain ⟨e', he', hpts⟩ := Option.map_eq_some_iff.mp hk
      have hkey : e'.key = e.key :=
        (MessageBoxes.entry_key hs' he').trans (MessageBoxes.entry_key hs he).symm
      rw [he', Option.map_some, Option.map_some, LiveEntry.bare, LiveEntry.bare, hkey, hpts]
  have hchannels : s'.sessionState.channels = s.sessionState.channels := by
    rw [← sessionState_bare s', ← sessionState_bare s, hbare]
    rfl
  have hstate : ∀ t : MessageBoxes, t.sessionState =
      ⟨((t.entry .common).map LiveEntry.pts).getD noPts,
        ((t.entry .secondary).map LiveEntry.pts).getD noPts, t.date, t.seq,
        t.sessionState.channels⟩ := fun _ => rfl
  rw [hstate s', hstate s, hchannels, h.positions, h.positions, h.date, h.seq]

end Grammers
