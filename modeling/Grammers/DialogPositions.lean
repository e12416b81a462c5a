import Grammers.DialogIter

namespace Grammers

/-- The saved position of a channel. -/
def MemorySession.position (s : MemorySession) (id : Int) : Option Int32 :=
  (s.updates.channels.find? fun c => c.id = id).map ChannelState.pts

namespace Dialogs

/-- The first position for a channel. -/
def firstPts (positions : List ChannelState) (id : Int) : Option Int32 :=
  (positions.find? fun c => c.id = id).map ChannelState.pts

/-- The positions that a call writes: those of the page it fetches, up to a write that fails. -/
def written (iter : DialogIter) (reply : Reply) (failsAt : Option Nat) : List ChannelState :=
  match iter.nextRaw, reply with
  | none, .dialogs page => upTo (channelPositions page.dialogs)
  | none, .slice _ page => upTo (channelPositions page.dialogs)
  | _, _ => []
where
  upTo (positions : List ChannelState) : List ChannelState :=
    match failsAt with
    | none => positions
    | some n => positions.take n

/-- A call, or a session as the update stream left it. -/
inductive Event where
  | next (reply : Reply) (failsAt : Option Nat)
  | other (session : MemorySession)

/-- What one call did to the session. -/
structure Visit where
  before : MemorySession
  positions : List ChannelState
  after : MemorySession

/-- The calls of a run, up to one that panics. -/
def visits : DialogIter → MemorySession → List Event → List Visit
  | _, _, [] => []
  | iter, _, .other session :: events => visits iter session events
  | iter, session, .next reply failsAt :: events =>
    let r := next iter session reply failsAt
    ⟨session, written iter reply failsAt, r.session⟩ ::
      if r.outcome = .panic then [] else visits r.iter r.session events

/-- Known positions stay as they are, and other channels get the first one that was seen. -/
def Visit.Kept (v : Visit) : Prop :=
  ∀ id, v.after.position id = (v.before.position id).or (firstPts v.positions id)

/-- The last position for a channel is the one that is known, or else the first one. -/
def Visit.Agrees (v : Visit) : Prop :=
  ∀ id pts, firstPts v.positions.reverse id = some pts →
    (v.before.position id).or (firstPts v.positions id) = some pts

section Positions

variable {session : MemorySession}

theorem find_filter_ne (channels : List ChannelState) (a id : Int) :
    (channels.filter fun c => c.id ≠ a).find? (fun c => c.id = id) =
      if a = id then none else channels.find? fun c => c.id = id := by
  by_cases ha : a = id
  · rw [if_pos ha, List.find?_eq_none]
    intro c hc
    have hne := (List.mem_filter.mp hc).2
    simpa [ha] using hne
  · rw [if_neg ha]
    induction channels with
    | nil => rfl
    | cons c channels ih =>
      by_cases hc : c.id = a
      · have hne : ¬c.id = id := fun h => ha (hc.symm.trans h)
        rw [List.filter_cons_of_neg (by simpa using hc), ih, List.find?_cons_of_neg (by simpa using hne)]
      · rw [List.filter_cons_of_pos (by simpa using hc), List.find?_cons, List.find?_cons, ih]

theorem position_setUpdateState (c : ChannelState) (id : Int) :
    (session.setUpdateState (.channel c.id c.pts)).position id =
      if c.id = id then some c.pts else session.position id := by
  rw [MemorySession.position, MemorySession.setUpdateState, List.find?_append, find_filter_ne]
  by_cases hid : c.id = id
  · simp [hid]
  · simp [hid, MemorySession.position]

/-- The last position that was written for a channel stays. -/
theorem position_setPositions (positions : List ChannelState) (failsAt : Option Nat) (id : Int) :
    (setPositions session positions failsAt).1.position id =
      (firstPts (written.upTo failsAt positions).reverse id).or (session.position id) := by
  induction positions generalizing session failsAt with
  | nil => cases failsAt <;> simp [setPositions, written.upTo, firstPts]
  | cons c rest ih =>
    have hlast : ∀ tail : List ChannelState, firstPts (c :: tail).reverse id =
        (firstPts tail.reverse id).or (if c.id = id then some c.pts else none) := by
      intro tail
      simp only [firstPts, List.reverse_cons, List.find?_append, List.find?_singleton]
      by_cases hid : c.id = id
      · simp only [hid, decide_true]
        cases List.find? (fun c => decide (c.id = id)) tail.reverse <;> simp
      · simp [hid]
    have hstep : ∀ failsAt', (setPositions (session.setUpdateState (.channel c.id c.pts)) rest
        failsAt').1.position id = (firstPts (c :: written.upTo failsAt' rest).reverse id).or
          (session.position id) := by
      intro failsAt'
      rw [ih, hlast, position_setUpdateState, Option.or_assoc]
      by_cases hid : c.id = id <;> simp [hid]
    match failsAt with
    | none => exact hstep none
    | some 0 => simp [setPositions, written.upTo, firstPts]
    | some (n + 1) => exact hstep (some n)

end Positions

theorem next_session (iter : DialogIter) (session : MemorySession) (reply : Reply)
    (failsAt : Option Nat) (id : Int) : (next iter session reply failsAt).session.position id =
      (firstPts (written iter reply failsAt).reverse id).or (session.position id) := by
  have hpage : ∀ (iter' : DialogIter) (page : Page),
      (handlePage iter' session page failsAt).session.position id =
        (firstPts (written.upTo failsAt (channelPositions page.dialogs)).reverse id).or
          (session.position id) := by
    intro iter' page
    have hset := @position_setPositions (session.cachePeers page.cached)
      (channelPositions page.dialogs) failsAt id
    have hsession : (handlePage iter' session page failsAt).session =
        (setPositions (session.cachePeers page.cached) (channelPositions page.dialogs) failsAt).1 := by
      unfold handlePage
      split
      next session' written hwritten =>
        rw [hwritten]
        split
        · split
          · rfl
          · split <;> rfl
        · rfl
    rw [hsession, hset]
    rfl
  unfold next written
  cases hraw : iter.nextRaw with
  | some item => simp [firstPts]
  | none =>
    cases reply with
    | dialogs page => exact hpage _ page
    | slice count page => exact hpage _ page
    | notModified => simp [firstPts]
    | failed => simp [firstPts]

theorem mem_visits {iter : DialogIter} {session : MemorySession} {events : List Event} {v : Visit}
    (h : v ∈ visits iter session events) (id : Int) :
    v.after.position id = (firstPts v.positions.reverse id).or (v.before.position id) := by
  induction events generalizing iter session with
  | nil => cases h
  | cons event events ih =>
    cases event with
    | other session => exact ih h
    | next reply failsAt =>
      rcases List.mem_cons.mp h with rfl | h
      · exact next_session iter session reply failsAt id
      · split at h
        · cases h
        · exact ih h

theorem firstPts_reverse_isNone {positions : List ChannelState} {id : Int}
    (h : firstPts positions.reverse id = none) : firstPts positions id = none := by
  simp only [firstPts, Option.map_eq_none_iff, List.find?_eq_none, List.mem_reverse] at h ⊢
  exact h

/-- No call moves a known position and new ones are the first ones seen, exactly in the runs in which
the last position that a page has for a channel is the known one, or else the first. -/
theorem dialog_positions_kept_iff (iter : DialogIter) (session : MemorySession)
    (events : List Event) : (∀ v ∈ visits iter session events, v.Kept) ↔
      ∀ v ∈ visits iter session events, v.Agrees := by
  refine forall₂_congr fun v hv => ⟨fun hkept id pts hpts => ?_, fun hagrees id => ?_⟩
  · rw [← hkept id, mem_visits hv, hpts]
    rfl
  · rw [mem_visits hv]
    cases hlast : firstPts v.positions.reverse id with
    | none => simp [firstPts_reverse_isNone hlast]
    | some pts => exact (hagrees id pts hlast).symm

/-- A session that knows a position, and a page with a later one. -/
def behind : MemorySession := ⟨2, [], ∅, ⟨1, 0, 0, 0, [⟨7, 5⟩]⟩⟩

def aheadPage : Page :=
  ⟨[.dialog (.channel 7) (some 9)], [], [⟨.channelUnchecked 7, some 1⟩], []⟩

theorem dialog_position_moved :
    behind.position 7 = some 5 ∧
      (next init behind (.dialogs aheadPage) none).session.position 7 = some 9 ∧
      ¬∀ v ∈ visits init behind [.next (.dialogs aheadPage) none], v.Kept := by
  have hafter : (next init behind (.dialogs aheadPage) none).session.position 7 = some 9 := by
    rw [next_session]
    decide
  refine ⟨by decide, hafter, fun h => ?_⟩
  have hkept := h _ List.mem_cons_self 7
  rw [hafter] at hkept
  exact absurd hkept (by decide)

end Dialogs

end Grammers
