import Grammers.BoxRecovery

namespace Grammers

open StableSort

/-- What one batch of updates is processed with: the clock, the keys whose difference
it belongs to, and the date and sequence its updates are delivered at. -/
structure Batch where
  now : Instant
  force : List Key
  newDate : Int32
  newSeq : Int32

def Batch.mkState (b : Batch) (messageBox : Option MessageBox) : State where
  date := b.newDate
  seq := b.newSeq
  messageBox := messageBox

/-- The variables of the loop over a batch. -/
structure Processing where
  boxes : MessageBoxes
  result : List (Update × State)
  haveUnresolvedGaps : Bool
  deriving DecidableEq

/-- What applying one update leaves besides the entry: what it delivers, and the
deadline of the gap that stays open. -/
structure Delivery where
  result : List (Update × State)
  gapDeadline : Option Instant
  deriving DecidableEq

/-- Pop stored updates while they follow the position or lie before it. Returns the
position reached, the updates delivered and those left, in pop order. -/
def drainGap (b : Batch) : Int32 → List Update →
    Except Exit (Int32 × List (Update × State) × List Update)
  | pts, [] => .ok (pts, [], [])
  | pts, update :: updates =>
    match PtsInfo.fromUpdate update with
    | none => .error (.panic .gapUpdateWithoutPts)
    | some info =>
      match compare (pts.toInt + info.count.toInt) info.pts.toInt with
      | .eq => do
        let (pts, result, left) ← drainGap b info.pts updates
        return (pts, (update, b.mkState (some info.toMessageBox)) :: result, left)
      | .gt => drainGap b pts updates
      | .lt => .ok (pts, [], update :: updates)

/-- The stored updates in pop order: sorted by descending key, popped from the end. -/
def popOrder (updates : List Update) : List Update :=
  (sortUpdatesByKey (fun u => OrderDual.toDual (updateSortKey u)) updates).reverse

/-- Apply, skip or store one update at its entry. -/
def orderUpdate (b : Batch) (info : PtsInfo) (update : Update) (entry : LiveEntry) :
    LiveEntry × List (Update × State) :=
  match compare (entry.pts.toInt + info.count.toInt) info.pts.toInt with
  | .eq =>
    ({ entry with pts := info.pts, deadline := nextUpdatesDeadline b.now },
      [(update, b.mkState (some info.toMessageBox))])
  | .gt => (entry, [])
  | .lt =>
    let gap := entry.possibleGap.getD ⟨b.now + possibleGapTimeout, []⟩
    let updates := if gap.updates.length < maxHeldUpdates then gap.updates ++ [update] else gap.updates
    ({ entry with possibleGap := some { gap with updates := updates } }, [])

/-- Deliver what the position now reaches from the entry's gap. -/
def resolveGap (b : Batch) (entry : LiveEntry) : Except Exit (LiveEntry × Delivery) :=
  match entry.possibleGap with
  | none => .ok (entry, ⟨[], none⟩)
  | some gap => do
    let (pts, result, left) ← drainGap b entry.pts (popOrder gap.updates)
    if left.isEmpty then
      return ({ entry with pts := pts, possibleGap := none }, ⟨result, none⟩)
    else
      return ({ entry with pts := pts, possibleGap := some { gap with updates := left.reverse } },
        ⟨result, some gap.deadline⟩)

def applyToEntry (b : Batch) (info : PtsInfo) (update : Update) (entry : LiveEntry) :
    Except Exit (LiveEntry × Delivery) := do
  let (entry, result) := orderUpdate b info update entry
  let (entry, delivery) ← resolveGap b entry
  return (entry, { delivery with result := result ++ delivery.result })

namespace MessageBoxes

/-- A channel too far behind becomes known at the position that says so. -/
def admitTooLong (s : MessageBoxes) (key : Key) (pts : Option Int32) (deadline : Instant) :
    MessageBoxes :=
  match pts.filter (noPts < ·) with
  | some pts => if (s.entry key).isNone then s.setEntry (.fresh key pts deadline) else s
  | none => s

/-- Socket updates of a sequence under recovery: only those of channels are held. -/
def postpone (s : MessageBoxes) (key : Key) (update : Update) : MessageBoxes :=
  match key with
  | .channel channelId => s.holdChannelUpdate channelId update
  | _ => s

end MessageBoxes

/-- One update of a batch. -/
def processUpdate (b : Batch) (p : Processing) (update : Update) : Except Exit Processing :=
  let deadline := nextUpdatesDeadline b.now
  match update with
  | .channelTooLong channelId pts =>
    let key := Key.channel channelId
    if p.boxes.isGettingDiff key then .ok p
    else
      .ok { p with boxes := (p.boxes.admitTooLong key pts deadline).tryBeginGetDiff key b.now }
  | update =>
    match PtsInfo.fromUpdate update with
    | none => .ok { p with result := p.result ++ [(update, b.mkState none)] }
    | some info =>
      if info.count < 0 ∨ info.pts < info.count then
        .error (.gap (p.boxes.tryBeginGetDiff info.key b.now))
      else if info.key ∈ b.force then
        .ok { p with
          boxes := p.boxes.resetDeadline info.key deadline
          result := p.result ++ [(update, b.mkState (some info.toMessageBox))] }
      else if p.boxes.isGettingDiff info.key then
        .ok { p with boxes := p.boxes.postpone info.key update, haveUnresolvedGaps := true }
      else if info.key = .secondary ∧ (p.boxes.entry .common).isNone then
        .ok { p with result := p.result ++ [(update, b.mkState none)] }
      else do
        let (s, delivery) ← p.boxes.forceUpdateEntry
          (.fresh info.key (info.pts - info.count) deadline) (applyToEntry b info update)
        return {
          boxes := { s with
            nextDeadline := min s.nextDeadline (delivery.gapDeadline.getD deadline) }
          result := p.result ++ delivery.result
          haveUnresolvedGaps := p.haveUnresolvedGaps || delivery.gapDeadline.isSome }

namespace MessageBoxes

/-- The loop over the sorted updates of a batch, and the account date and sequence after it. -/
def processBatch (s : MessageBoxes) (b : Batch) (updates : List Update) :
    Except Exit (MessageBoxes × List (Update × State)) := do
  let p ← (sortUpdatesByKey updateSortKey updates).foldlM (processUpdate b) ⟨s, [], false⟩
  if p.result ≠ [] ∧ ¬p.haveUnresolvedGaps then
    return ({ p.boxes with date := b.newDate, seq := b.newSeq }, p.result)
  else return (p.boxes, p.result)

def processUpdatesInner (s : MessageBoxes) (updates : UpdatesLike) (force : List Key)
    (now : Instant) : Except Exit (MessageBoxes × UpdateAndPeers) :=
  let gap := Except.error (Exit.gap (s.tryBeginGetDiff .common now))
  match adapt updates with
  | none => gap
  | some combined =>
    if combined.date < 0 ∨ combined.seq < 0 ∨ combined.seqStart < 0 then gap
    else
      let accountPending := force.isEmpty && (s.isGettingDiff .common || s.isGettingDiff .secondary)
      let b : Batch := {
        now := now
        force := force
        newDate := if combined.date = noDate ∨ accountPending then s.date else combined.date
        newSeq := if combined.seq = noSeq ∨ accountPending then s.seq else combined.seq }
      let rest := if combined.updates.any (fun u => !PtsInfo.validUpdate u) then gap
        else do
          let (s, result) ← s.processBatch b combined.updates
          return (s, ⟨result, combined.users, combined.chats⟩)
      if combined.seqStart ≠ noSeq ∧ ¬accountPending then
        match compare (s.seq.toInt + 1) combined.seqStart.toInt with
        | .eq => rest
        -- already handled
        | .gt => .ok (s, ⟨[], combined.users, combined.chats⟩)
        | .lt => gap
      else rest

def processUpdates (s : MessageBoxes) (updates : UpdatesLike) (now : Instant) :
    Except Exit (MessageBoxes × UpdateAndPeers) :=
  s.processUpdatesInner updates [] now

/-- Whether a released update lies behind the position of its channel. -/
def isCovered (s : MessageBoxes) (channelId : Int) (update : Update) : Bool :=
  (s.entry (.channel channelId)).any fun entry =>
    (PtsInfo.fromUpdate update).any fun info =>
      decide (info.pts.toInt < entry.pts.toInt + info.count.toInt)

/-- The held updates of channels whose recovery has ended, less those their position covers. -/
def releasedUpdates (s : MessageBoxes) : List Update :=
  (s.heldUpdates.filter fun (id, update) =>
    !s.isGettingDiff (.channel id) && !s.isCovered id update).map Prod.snd

/-- The state those updates are processed in: only channels under recovery keep theirs. -/
def released (s : MessageBoxes) : MessageBoxes :=
  { s with
    heldReleaseReady := false
    heldOverflowed := false
    heldUpdates := s.heldUpdates.filter fun (id, _) => s.isGettingDiff (.channel id) }

/-- Process the updates postponed during channel recoveries that have ended. -/
def takeReleasedUpdates (s : MessageBoxes) (now : Instant) :
    Except Exit (MessageBoxes × Option UpdateAndPeers) :=
  if ¬s.heldReleaseReady then .ok (s, none)
  else if s.releasedUpdates.isEmpty then .ok (s.released, none)
  else
    match s.released.processUpdatesInner
        (.updates (.updates s.releasedUpdates [] [] noDate noSeq)) [] now with
    | .ok (s, result) => .ok (s, some result)
    | .error (.gap s) => .ok (s, none)
    | .error (.panic reason) => .error (.panic reason)

end MessageBoxes

end Grammers
