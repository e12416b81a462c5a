import Grammers.BoxAdaptor

namespace Grammers

open SortedSearch StableSort

def nextUpdatesDeadline (now : Instant) : Instant := now + noUpdatesTimeout

namespace MessageBoxes

variable {s : MessageBoxes} {e : LiveEntry} {k k' : Key} {f : LiveEntry → LiveEntry}

/-- A message box with no previous state. -/
def new (now : Instant) : MessageBoxes where
  entries := []
  date := noDate
  seq := noSeq
  gettingDiffFor := []
  readyDiffCount := 0
  exhaustedChannels := ∅
  heldUpdates := []
  heldReleaseReady := false
  heldOverflowed := false
  nextDeadline := nextUpdatesDeadline now

/-- Merge runs of entries with one key into the first of them, at the oldest position. -/
def dedupEntries (earlier : LiveEntry) : List LiveEntry → List LiveEntry
  | [] => [earlier]
  | later :: rest =>
    if later.key = earlier.key then
      dedupEntries { earlier with pts := min earlier.pts later.pts } rest
    else earlier :: dedupEntries later rest

def dedupByKey : List LiveEntry → List LiveEntry
  | [] => []
  | entry :: rest => dedupEntries entry rest

/-- Negative account counters become zero. -/
def repairCounters (state : UpdatesState) : UpdatesState :=
  if state.pts < noPts ∨ state.qts < noPts ∨ state.date < noDate ∨ state.seq < noSeq then
    { state with
      pts := max state.pts noPts
      qts := max state.qts noPts
      date := max state.date noDate
      seq := max state.seq noSeq }
  else state

/-- Invalid channel rows are discarded. -/
def repairChannels (state : UpdatesState) : UpdatesState :=
  { state with
    channels := state.channels.filter fun c => isChannelId c.id && decide (noPts ≤ c.pts) }

/-- A secondary position without a primary one is discarded with the account state. -/
def repairAccount (state : UpdatesState) : UpdatesState :=
  if state.pts = noPts ∧ noPts < state.qts then
    { state with qts := noPts, seq := noSeq, date := noDate }
  else state

def repair (state : UpdatesState) : UpdatesState :=
  repairAccount (repairChannels (repairCounters state))

/-- The entry a saved position is restored to: known, and with recovery pending. -/
def restored (key : Key) (pts : Int32) (deadline : Instant) : LiveEntry :=
  { LiveEntry.fresh key pts deadline with recoveryPending := true }

def restoredEntries (state : UpdatesState) (deadline : Instant) : List LiveEntry :=
  let common := if noPts < state.pts then [restored .common (max state.pts noPts) deadline] else []
  let secondary := if noPts < state.qts then [restored .secondary state.qts deadline] else []
  let channels := (state.channels.filter fun c => decide (0 < c.id) && decide (noPts < c.pts)).map
    fun c => restored (.channel c.id) c.pts deadline
  common ++ secondary ++ channels

/-- Restore saved update state; every retained position starts with recovery pending. -/
def load (saved : UpdatesState) (now : Instant) : MessageBoxes :=
  let state := repair saved
  let deadline := nextUpdatesDeadline now
  let entries := dedupByKey (sortByKey LiveEntry.key (restoredEntries state deadline))
  { entries := entries
    date := state.date
    seq := state.seq
    gettingDiffFor := entries.map LiveEntry.key
    readyDiffCount := (entries.map LiveEntry.key).length
    exhaustedChannels := ∅
    heldUpdates := []
    heldReleaseReady := false
    heldOverflowed := false
    nextDeadline := deadline }

/-- Like `load`, but invalid counters or rows are refused instead of repaired. -/
def tryLoad (saved : UpdatesState) (now : Instant) : Option MessageBoxes :=
  if saved.pts < 0 ∨ saved.qts < 0 ∨ saved.seq < 0 ∨ saved.date < 0 ∨
      saved.channels.any (fun c => !isChannelId c.id || decide (c.pts < 0)) then none
  else some (load saved now)

def entry (s : MessageBoxes) (key : Key) : Option LiveEntry :=
  lookup LiveEntry.key s.entries key

def isGettingDiff (s : MessageBoxes) (key : Key) : Bool :=
  (s.entry key).any LiveEntry.recoveryPending

/-- Change the entry of a key. What the source returns besides, whether there is
one, is `(s.entry key).isSome`. -/
def updateEntry (s : MessageBoxes) (key : Key) (updater : LiveEntry → LiveEntry) : MessageBoxes :=
  { s with entries := modifyKey LiveEntry.key s.entries key updater }

def setEntry (s : MessageBoxes) (entry : LiveEntry) : MessageBoxes :=
  { s with entries := upsert LiveEntry.key s.entries entry }

/-- Change the entry of a key, or a new one for it. The updater keeps the key. -/
def forceUpdateEntry {β : Type} (s : MessageBoxes) (entry : LiveEntry)
    (updater : LiveEntry → Except Exit (LiveEntry × β)) : Except Exit (MessageBoxes × β) := do
  let (entry, result) ← updater ((s.entry entry.key).getD entry)
  return (s.setEntry entry, result)

def setPts (s : MessageBoxes) (key : Key) (pts : Int32) (now : Instant) : MessageBoxes :=
  if (s.entry key).isSome then s.updateEntry key fun entry => { entry with pts := pts }
  else s.setEntry (.fresh key pts (nextUpdatesDeadline now))

def popEntry (s : MessageBoxes) (key : Key) : MessageBoxes :=
  { s with entries := removeKey LiveEntry.key s.entries key }

/-- The current state in a format that sessions understand. -/
def sessionState (s : MessageBoxes) : UpdatesState where
  pts := ((s.entry .common).map LiveEntry.pts).getD noPts
  qts := ((s.entry .secondary).map LiveEntry.pts).getD noPts
  date := s.date
  seq := s.seq
  channels := s.entries.filterMap fun entry =>
    match entry.key with
    | .channel id => some ⟨id, entry.pts⟩
    | _ => none

def isEmpty (s : MessageBoxes) : Bool := s.entries.isEmpty

def hasPrimaryState (s : MessageBoxes) : Bool := (s.entry .common).isSome

/-! Entries as a finite map. -/

/-- The entries are strictly sorted by key. -/
def Sorted (s : MessageBoxes) : Prop := SortedSearch.Sorted LiveEntry.key s.entries

theorem entry_eq_some_iff (hs : s.Sorted) : s.entry k = some e ↔ e ∈ s.entries ∧ e.key = k :=
  lookup_eq_some_iff hs

theorem entry_key (hs : s.Sorted) (h : s.entry k = some e) : e.key = k := lookup_key hs h

theorem entry_of_mem (hs : s.Sorted) (h : e ∈ s.entries) : s.entry e.key = some e :=
  (entry_eq_some_iff hs).mpr ⟨h, rfl⟩

/-- Changing a known entry is setting the changed one. -/
theorem updateEntry_of_entry (hs : s.Sorted) (h : s.entry k = some e) (hf : (f e).key = e.key) :
    s.updateEntry k f = s.setEntry (f e) := by
  unfold updateEntry setEntry
  rw [modifyKey_eq_upsert hs h hf]

theorem updateEntry_of_none (hs : s.Sorted) (h : s.entry k = none) (f : LiveEntry → LiveEntry) :
    s.updateEntry k f = s := by
  unfold updateEntry
  rw [modifyKey_eq_self hs h]

theorem setEntry_sorted (hs : s.Sorted) (e : LiveEntry) : (s.setEntry e).Sorted :=
  upsert_sorted hs e

theorem entry_setEntry (hs : s.Sorted) (e : LiveEntry) (k : Key) :
    (s.setEntry e).entry k = if k = e.key then some e else s.entry k :=
  lookup_upsert hs e k

theorem entry_setEntry_of_key (hs : s.Sorted) (e : LiveEntry) (hk : e.key = k) (k' : Key) :
    (s.setEntry e).entry k' = if k' = k then some e else s.entry k' :=
  hk ▸ entry_setEntry hs e k'

theorem setEntry_setEntry (hs : s.Sorted) (e e' : LiveEntry) (h : e.key = e'.key) :
    (s.setEntry e).setEntry e' = s.setEntry e' := by
  have := upsert_upsert hs h
  simp [setEntry, this]

theorem popEntry_sorted (hs : s.Sorted) (k : Key) : (s.popEntry k).Sorted :=
  removeKey_sorted hs k

theorem entry_popEntry (hs : s.Sorted) (k k' : Key) :
    (s.popEntry k).entry k' = if k' = k then none else s.entry k' :=
  lookup_removeKey hs k k'

/-- Setting a position changes that position only, or creates a missing entry. -/
theorem setPts_eq (hs : s.Sorted) (k : Key) (pts : Int32) (now : Instant) :
    s.setPts k pts now = s.setEntry ((s.entry k).elim (.fresh k pts (nextUpdatesDeadline now))
      fun e => { e with pts := pts }) := by
  unfold setPts
  cases he : s.entry k with
  | none => rfl
  | some e => exact updateEntry_of_entry hs he rfl

theorem entry_setPts (hs : s.Sorted) (k : Key) (pts : Int32) (now : Instant) (k' : Key) :
    (s.setPts k pts now).entry k' = if k' = k then
      some ((s.entry k).elim (.fresh k pts (nextUpdatesDeadline now)) fun e => { e with pts := pts })
    else s.entry k' := by
  rw [setPts_eq hs]
  refine entry_setEntry_of_key hs _ ?_ k'
  cases he : s.entry k with
  | none => rfl
  | some e =>
    have hk : e.key = k := entry_key hs he
    exact hk

end MessageBoxes

end Grammers
