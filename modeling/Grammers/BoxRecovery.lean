import Grammers.BoxEntries

namespace Grammers

def LiveEntry.isReady (entry : LiveEntry) : Bool := entry.recoveryPending && !entry.recoveryDeferred

/-- The cached deadline only has to cover entries whose recovery is not ready. -/
def LiveEntry.isWaiting (entry : LiveEntry) : Bool :=
  !entry.recoveryPending || entry.recoveryDeferred

def Key.isChannel : Key → Bool
  | .channel _ => true
  | _ => false

namespace MessageBoxes

/-- Keep a channel update for later, evicting the oldest one beyond the limit. -/
def holdChannelUpdate (s : MessageBoxes) (channelId : Int) (update : Update) : MessageBoxes :=
  if s.heldUpdates.length = maxHeldUpdates then
    { s with
      heldUpdates := s.heldUpdates.tail ++ [(channelId, update)]
      heldOverflowed := true }
  else { s with heldUpdates := s.heldUpdates ++ [(channelId, update)] }

/-- Keep what a channel's gap was holding when its recovery begins. -/
def holdGap (s : MessageBoxes) (key : Key) (gap : Option PossibleGap) : MessageBoxes :=
  match key, gap with
  | .channel channelId, some gap => gap.updates.foldl (fun s u => s.holdChannelUpdate channelId u) s
  | _, _ => s

def enqueue (s : MessageBoxes) (key : Key) : MessageBoxes :=
  { s with gettingDiffFor := s.gettingDiffFor ++ [key], readyDiffCount := s.readyDiffCount + 1 }

/-- Take a ready recovery off the queue. -/
def dequeue (s : MessageBoxes) (key : Key) : Except Exit MessageBoxes :=
  if key ∉ s.gettingDiffFor then .error (.panic .readyRecoveryNotQueued)
  else if s.readyDiffCount = 0 then .error (.panic .readyDiffCountUnderflow)
  else .ok { s with
    gettingDiffFor := s.gettingDiffFor.erase key
    readyDiffCount := s.readyDiffCount - 1 }

/-- One entry of the expiry scan: a deferred recovery becomes ready again, and a
deadline that has passed starts a recovery. -/
def scanEntry (now : Instant) (s : MessageBoxes) (entry : LiveEntry) : MessageBoxes × LiveEntry :=
  let (s, entry) :=
    if entry.recoveryDeferred ∧ entry.deadline ≤ now then
      (s.enqueue entry.key, { entry with recoveryDeferred := false })
    else (s, entry)
  if entry.effectiveDeadline ≤ now ∧ ¬entry.recoveryPending then
    ((s.holdGap entry.key entry.possibleGap).enqueue entry.key,
      { entry with
        possibleGap := none
        recoveryDeferred := false
        recoveryPending := true
        recoveryDeferrals := 0 })
  else (s, entry)

def scanEntries (now : Instant) (s : MessageBoxes) : List LiveEntry → MessageBoxes × List LiveEntry
  | [] => (s, [])
  | entry :: entries =>
    let (s, entry) := scanEntry now s entry
    let (s, entries) := scanEntries now s entries
    (s, entry :: entries)

/-- The scan over all entries, and the cached deadline computed anew after it. -/
def scanDeadlines (s : MessageBoxes) (now : Instant) : MessageBoxes :=
  let (s, entries) := scanEntries now s s.entries
  { s with
    entries := entries
    nextDeadline := ((entries.filter LiveEntry.isWaiting).map
      LiveEntry.effectiveDeadline).min?.getD (nextUpdatesDeadline now) }

/-- The next deadline when receiving updates should time out. -/
def checkDeadlines (s : MessageBoxes) (now : Instant) : Instant × MessageBoxes :=
  let readyDeadline := min s.nextDeadline now
  if now < s.nextDeadline then
    (if s.readyDiffCount ≠ 0 then readyDeadline else s.nextDeadline, s)
  else
    let s := s.scanDeadlines now
    (if s.readyDiffCount ≠ 0 then readyDeadline else s.nextDeadline, s)

/-- Reset the deadline of an existing entry, and the cached deadline with it. -/
def resetDeadline (s : MessageBoxes) (key : Key) (deadline : Instant) : MessageBoxes :=
  let oldDeadline := ((s.entry key).map LiveEntry.deadline).getD s.nextDeadline
  let s := s.updateEntry key fun entry => { entry with deadline := deadline }
  if s.nextDeadline = oldDeadline then
    { s with nextDeadline := s.entries.foldl (fun d entry => min d entry.effectiveDeadline) deadline }
  else { s with nextDeadline := min s.nextDeadline deadline }

/-- The deadline a server timeout in seconds asks for. -/
def timeoutDeadline (timeout : Option Int32) (now : Instant) : Instant :=
  ((timeout.filter fun t => 0 ≤ t).map fun t => now + fromSecs t.toInt.toNat).getD
    (nextUpdatesDeadline now)

def resetTimeout (s : MessageBoxes) (key : Key) (timeout : Option Int32) (now : Instant) :
    MessageBoxes :=
  s.resetDeadline key (timeoutDeadline timeout now)

/-- Set the account state, while there is none. -/
def setState (s : MessageBoxes) (state : ServerState) (now : Instant) : MessageBoxes :=
  let deadline := nextUpdatesDeadline now
  let s := (s.setEntry (.fresh .common state.pts deadline)).setEntry
    (.fresh .secondary state.qts deadline)
  { s with
    date := state.date
    seq := state.seq
    nextDeadline := min s.nextDeadline deadline }

/-- Set the position of a channel, unless it is known. -/
def trySetChannelState (s : MessageBoxes) (id : Int) (pts : Int32) (now : Instant) : MessageBoxes :=
  if (s.entry (.channel id)).isNone then
    s.setEntry (.fresh (.channel id) pts (nextUpdatesDeadline now))
  else s

/-- Begin getting difference for a known entry, at once or when its backoff ends. -/
def tryBeginGetDiff (s : MessageBoxes) (key : Key) (now : Instant) : MessageBoxes :=
  if s.isGettingDiff key then s
  else
    match s.entry key with
    | none => s
    | some entry =>
      -- whatever asks for this difference, a rejected channel still waits
      let notBefore := entry.retryNotBefore.filter (now < ·)
      let s := s.updateEntry key fun entry => { entry with
        possibleGap := none
        recoveryPending := true
        recoveryDeferred := notBefore.isSome
        recoveryDeferrals := 0
        deadline := notBefore.getD entry.deadline }
      let s := s.holdGap key entry.possibleGap
      match notBefore with
      | some notBefore => { s with nextDeadline := min s.nextDeadline notBefore }
      | none => s.enqueue key

/-- Finish getting difference for a key, and reset its deadline. -/
def tryEndGetDiff (s : MessageBoxes) (key : Key) (now : Instant) : Except Exit MessageBoxes :=
  match (s.entry key).filter LiveEntry.recoveryPending with
  | none => .ok s
  | some entry => do
    let s ← (if entry.recoveryDeferred then .ok s else s.dequeue key)
    let s := s.updateEntry key fun entry => { entry with
      recoveryPending := false
      recoveryDeferred := false
      recoveryDeferrals := 0 }
    let s := s.resetDeadline key (nextUpdatesDeadline now)
    return { s with heldReleaseReady := s.heldReleaseReady || key.isChannel }

end MessageBoxes

end Grammers
