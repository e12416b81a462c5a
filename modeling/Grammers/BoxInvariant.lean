import Grammers.BoxStore
import Grammers.BoxDifference
import Grammers.WorkQueue

namespace Grammers

open StableSort Reassembly WorkQueue

/-- What holds of every entry at any time. -/
structure LiveEntry.Ok (e : LiveEntry) : Prop where
  deferred : e.recoveryDeferred = true → e.recoveryPending = true
  storable : ∀ u ∈ e.buffer.kept, Storable e.key u
  bound : e.buffer.kept.length ≤ maxHeldUpdates
  nonempty : ∀ gap, e.possibleGap = some gap → gap.updates ≠ []
  ahead : e.key.isChannel = true → ∀ u ∈ e.buffer.kept, e.pts.toInt < updateSortKey u
  account : e.key.isChannel = false → e.retryNotBefore = none ∧ e.recoveryDeferred = false
  accountGap : e.key.isChannel = false → e.recoveryPending = true → e.possibleGap = none

theorem LiveEntry.Ok.of_no_gap {e : LiveEntry} (hg : e.possibleGap = none)
    (hd : e.recoveryDeferred = true → e.recoveryPending = true)
    (ha : e.key.isChannel = false → e.retryNotBefore = none ∧ e.recoveryDeferred = false) : e.Ok := by
  have hk : e.buffer.kept = [] := by simp [LiveEntry.buffer, hg]
  exact ⟨hd, by simp [hk], by simp [hk], by simp [hg], by simp [hk], ha, fun _ _ => hg⟩

theorem LiveEntry.fresh_ok (k : Key) (pts : Int32) (d : Instant) : (LiveEntry.fresh k pts d).Ok :=
  LiveEntry.Ok.of_no_gap rfl (by simp [LiveEntry.fresh]) (by simp [LiveEntry.fresh])

section Latest

variable {α : Type} {limit : Nat} {held more : List α}

/-- The most recent entries of a list, as many as a limit allows. -/
@[irreducible] def latest (limit : Nat) (held : List α) : List α := held.drop (held.length - limit)

theorem latest_length (limit : Nat) (held : List α) : (latest limit held).length ≤ limit := by
  simp only [latest, List.length_drop]
  omega

theorem latest_of_short (h : held.length ≤ limit) : latest limit held = held := by
  simp [latest, Nat.sub_eq_zero_of_le h]

theorem latest_append : latest limit (latest limit held ++ more) = latest limit (held ++ more) := by
  have hlen : held.length - limit ≤ held.length := Nat.sub_le _ _
  simp only [latest, List.length_append, List.length_drop]
  rw [← List.drop_append_of_le_length hlen, List.drop_drop]
  congr 1
  omega

theorem latest_push_full (h : held.length = limit) (hpos : 0 < limit) (a : α) :
    latest limit (held ++ [a]) = held.tail ++ [a] := by
  have hlen : held.length + 1 - limit = 1 := by omega
  simp only [latest, List.length_append, List.length_singleton, hlen,
    List.drop_append_of_le_length (show 1 ≤ held.length by omega), List.drop_one]

theorem mem_of_mem_latest {a : α} (h : a ∈ latest limit held) : a ∈ held := by
  unfold latest at h
  exact List.mem_of_mem_drop h

end Latest

/-- The updates a gap leaves to be held when the recovery of its key begins. -/
def gapHeld (key : Key) (gap : Option PossibleGap) : List (Int × Update) :=
  match key, gap with
  | .channel channelId, some gap => gap.updates.map fun u => (channelId, u)
  | _, _ => []

namespace MessageBoxes

variable {s s' : MessageBoxes} {e e' : LiveEntry} {k k' : Key} {c : Int} {u : Update} {now : Instant}

def ready (s : MessageBoxes) (k : Key) : Bool := (s.entry k).any LiveEntry.isReady

structure Inv (s : MessageBoxes) : Prop where
  sorted : s.Sorted
  entryOk : ∀ k e, s.entry k = some e → e.Ok
  queue : Exact s.ready s.gettingDiffFor s.readyDiffCount
  heldBound : s.heldUpdates.length ≤ maxHeldUpdates
  heldOk : ∀ held ∈ s.heldUpdates, Storable (.channel held.1) held.2

theorem Inv.congr (h : s.Inv) (he : s'.entries = s.entries)
    (hq : s'.gettingDiffFor = s.gettingDiffFor) (hc : s'.readyDiffCount = s.readyDiffCount)
    (hh : s'.heldUpdates = s.heldUpdates) : s'.Inv := by
  have hentry : s'.entry = s.entry := by
    funext k
    rw [entry, entry, he]
  have hready : s'.ready = s.ready := by
    funext k
    rw [ready, ready, hentry]
  refine ⟨by rw [Sorted, he]; exact h.sorted, by rw [hentry]; exact h.entryOk, ?_,
    by rw [hh]; exact h.heldBound, by rw [hh]; exact h.heldOk⟩
  rw [hready, hq, hc]
  exact h.queue

theorem ready_setEntry (hs : s.Sorted) (e : LiveEntry) (k : Key) :
    (s.setEntry e).ready k = if k = e.key then e.isReady else s.ready k := by
  rw [ready, entry_setEntry hs]
  split
  next => rfl
  next => rfl

theorem ready_popEntry (hs : s.Sorted) (k k' : Key) :
    (s.popEntry k).ready k' = if k' = k then false else s.ready k' := by
  rw [ready, entry_popEntry hs]
  split
  next => rfl
  next => rfl

theorem entryOk_setEntry (h : s.Inv) (he : e.Ok) :
    ∀ k e', (s.setEntry e).entry k = some e' → e'.Ok := by
  intro k e' hk
  rw [entry_setEntry h.sorted] at hk
  split at hk
  next => exact Option.some.inj hk ▸ he
  next => exact h.entryOk k e' hk

theorem Inv.setEntry (h : s.Inv) (he : e.Ok) (hr : e.isReady = s.ready e.key) :
    (s.setEntry e).Inv := by
  refine ⟨setEntry_sorted h.sorted e, entryOk_setEntry h he, h.queue.congr ?_, h.heldBound, h.heldOk⟩
  intro k
  rw [ready_setEntry h.sorted]
  split
  next hk => rw [hk, hr]
  next => rfl

theorem Inv.setEntry_enqueue (h : s.Inv) (he : e.Ok) (hr : e.isReady = true)
    (hn : s.ready e.key = false) : ((s.setEntry e).enqueue e.key).Inv := by
  refine ⟨setEntry_sorted h.sorted e, entryOk_setEntry h he, h.queue.push hn ?_, h.heldBound, h.heldOk⟩
  intro k
  exact (ready_setEntry h.sorted e k).trans (by rw [hr])

theorem Inv.setEntry_dequeue (h : s.Inv) (he : e.Ok) (hr : e.isReady = false)
    (hn : s.ready e.key = true) : Inv { s.setEntry e with
      gettingDiffFor := s.gettingDiffFor.erase e.key
      readyDiffCount := s.readyDiffCount - 1 } := by
  refine ⟨setEntry_sorted h.sorted e, entryOk_setEntry h he, h.queue.erase hn ?_, h.heldBound, h.heldOk⟩
  intro k
  exact (ready_setEntry h.sorted e k).trans (by rw [hr])

theorem Inv.popEntry (h : s.Inv) (hn : s.ready k = false) : (s.popEntry k).Inv := by
  refine ⟨popEntry_sorted h.sorted k, ?_, h.queue.congr ?_, h.heldBound, h.heldOk⟩
  · intro k' e' hk
    rw [entry_popEntry h.sorted] at hk
    split at hk
    next => simp at hk
    next => exact h.entryOk k' e' hk
  · intro k'
    rw [ready_popEntry h.sorted]
    split
    next hk => rw [hk, hn]
    next => rfl

theorem Inv.dequeue_eq (h : s.Inv) (hn : s.ready k = true) : s.dequeue k = .ok { s with
    gettingDiffFor := s.gettingDiffFor.erase k
    readyDiffCount := s.readyDiffCount - 1 } := by
  have hmem := (h.queue.mem_iff k).mpr hn
  have hpos := h.queue.count_pos hn
  rw [dequeue, if_neg (not_not.mpr hmem), if_neg (by omega)]

theorem holdChannelUpdate_eq (hb : s.heldUpdates.length ≤ maxHeldUpdates) (c : Int) (u : Update) :
    ∃ overflowed, s.holdChannelUpdate c u = { s with
      heldUpdates := latest maxHeldUpdates (s.heldUpdates ++ [(c, u)])
      heldOverflowed := overflowed } := by
  unfold holdChannelUpdate
  split
  next hfull =>
    exact ⟨true, by rw [latest_push_full hfull (by decide)]⟩
  next hshort =>
    refine ⟨s.heldOverflowed, ?_⟩
    rw [latest_of_short (by simp only [List.length_append, List.length_singleton]; omega)]

/-- Holding what a gap contains keeps the latest updates, and touches nothing else. -/
theorem holdGap_eq (hb : s.heldUpdates.length ≤ maxHeldUpdates) (k : Key) (gap : Option PossibleGap) :
    ∃ overflowed, s.holdGap k gap = { s with
      heldUpdates := latest maxHeldUpdates (s.heldUpdates ++ gapHeld k gap)
      heldOverflowed := overflowed } := by
  have hfold : ∀ (us : List Update) (s : MessageBoxes) (c : Int),
      s.heldUpdates.length ≤ maxHeldUpdates →
      ∃ overflowed, us.foldl (fun s u => s.holdChannelUpdate c u) s = { s with
        heldUpdates := latest maxHeldUpdates (s.heldUpdates ++ us.map fun u => (c, u))
        heldOverflowed := overflowed } := by
    intro us
    induction us with
    | nil =>
      exact fun s c hb => ⟨s.heldOverflowed, by rw [List.map_nil, List.append_nil, latest_of_short hb]; rfl⟩
    | cons u us ih =>
      intro s c hb
      obtain ⟨o, ho⟩ := holdChannelUpdate_eq hb c u
      obtain ⟨o', ho'⟩ := ih (s.holdChannelUpdate c u) c (ho ▸ latest_length maxHeldUpdates (s.heldUpdates ++ [(c, u)]))
      refine ⟨o', ?_⟩
      rw [List.foldl_cons, ho', ho]
      simp [latest_append]
  unfold holdGap
  split
  next c gap => exact hfold gap.updates s c hb
  next hno =>
    have hnil : gapHeld k gap = [] := by
      unfold gapHeld
      split
      next c gap => exact absurd rfl (hno c gap rfl)
      next => rfl
    exact ⟨s.heldOverflowed, by rw [hnil, List.append_nil, latest_of_short hb]⟩

theorem Inv.held (h : s.Inv) {more : List (Int × Update)}
    (hm : ∀ held ∈ more, Storable (.channel held.1) held.2) (overflowed : Bool) :
    Inv { s with
      heldUpdates := latest maxHeldUpdates (s.heldUpdates ++ more)
      heldOverflowed := overflowed } := by
  refine ⟨h.sorted, h.entryOk, h.queue, latest_length maxHeldUpdates (s.heldUpdates ++ more), ?_⟩
  intro held hh
  rcases List.mem_append.mp (mem_of_mem_latest hh) with hh | hh
  · exact h.heldOk held hh
  · exact hm held hh

theorem Inv.holdChannelUpdate (h : s.Inv) (hu : Storable (.channel c) u) :
    (s.holdChannelUpdate c u).Inv := by
  obtain ⟨o, ho⟩ := holdChannelUpdate_eq h.heldBound c u
  rw [ho]
  exact h.held (by simpa using hu) o

theorem gapHeld_storable (he : e.Ok) :
    ∀ held ∈ gapHeld e.key e.possibleGap, Storable (.channel held.1) held.2 := by
  intro held hh
  unfold gapHeld at hh
  split at hh
  next c gap hk hg =>
    obtain ⟨u, hu, rfl⟩ := List.mem_map.mp hh
    rw [← hk]
    exact he.storable u (by simp [LiveEntry.buffer, hg, hu])
  next => simp at hh

theorem Inv.holdGap (h : s.Inv) (he : e.Ok) : (s.holdGap e.key e.possibleGap).Inv := by
  obtain ⟨o, ho⟩ := holdGap_eq h.heldBound e.key e.possibleGap
  rw [ho]
  exact h.held (gapHeld_storable he) o

theorem Inv.entry_key (h : s.Inv) (he : s.entry k = some e) : e.key = k :=
  MessageBoxes.entry_key h.sorted he

theorem ready_of_entry (he : s.entry k = some e) : s.ready k = e.isReady := by
  simp [ready, he]

theorem entry_of_isGettingDiff (h : s.isGettingDiff k = true) :
    ∃ e, s.entry k = some e ∧ e.recoveryPending = true := by
  cases he : s.entry k with
  | none => simp [isGettingDiff, he] at h
  | some e => exact ⟨e, rfl, by simpa [isGettingDiff, he] using h⟩

theorem isGettingDiff_of_entry (he : s.entry k = some e) :
    s.isGettingDiff k = e.recoveryPending := by
  simp [isGettingDiff, he]

end MessageBoxes

end Grammers
