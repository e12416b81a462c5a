import Grammers.BoxPosition
import Grammers.FailureStreak
import Grammers.ReceiverPacing

namespace Grammers

open LabelledPath FailureStreak
open Rpc (InvocationError)

namespace UpdatesReceiver

variable {provesLogin : UpdatesLike → Bool} {config : Config} {s t : Running} {e : Resumption}

/-- The sequence of a completed difference request, and whether its reply is unreadable. -/
abbrev Outcome : Type := Option Int × Bool

/-- A step, by the difference request that it completes. -/
def Completes (provesLogin : UpdatesLike → Bool) (s : Running) (o : Option Outcome) (t : Running) :
    Prop :=
  ∃ e, Step provesLogin s e t ∧ o = s.receiver.completed e.now s.phase e.action

/-- Of the requests of one sequence, in order, whether the reply is unreadable. -/
def outcomesOf (sequence : Option Int) (os : List (Option Outcome)) : List Bool :=
  os.filterMap fun o => (o.filter fun o => o.1 = sequence).map Prod.snd

theorem path_completes {events : List Resumption} (h : Path (Step provesLogin) s events t) :
    ∃ os, os.length = events.length ∧ Path (Completes provesLogin) s os t := by
  induction h with
  | nil => exact ⟨[], rfl, Path.nil⟩
  | cons hstep _ ih =>
    obtain ⟨os, hlength, hpath⟩ := ih
    exact ⟨_ :: os, congrArg Nat.succ hlength, Path.cons ⟨_, hstep, rfl⟩ hpath⟩

theorem outcomesOf_concat (sequence : Option Int) (os : List (Option Outcome)) (unreadable : Bool) :
    outcomesOf sequence (os ++ [some (sequence, unreadable)]) =
      outcomesOf sequence os ++ [unreadable] := by
  simp [outcomesOf]

theorem outcomesOf_concat_other {sequence : Option Int} {o : Option Outcome}
    (h : ∀ unreadable, o ≠ some (sequence, unreadable)) (os : List (Option Outcome)) :
    outcomesOf sequence (os ++ [o]) = outcomesOf sequence os := by
  have hnone : (o.filter fun o => o.1 = sequence) = none := by
    refine Option.filter_eq_none_iff.mpr fun outcome ho hsequence => ?_
    obtain ⟨sequence', unreadable⟩ := outcome
    obtain rfl := of_decide_eq_true hsequence
    exact h unreadable ho
  simp [outcomesOf, hnone]

theorem outcomesOf_length_le (sequence : Option Int) (os : List (Option Outcome)) :
    (outcomesOf sequence os).length ≤ os.length :=
  List.length_filterMap_le _ _

theorem countAfter_eq (count : Nat) (unreadable : Bool) :
    countAfter count unreadable = counted maxUnreadableDifferences count unreadable := by
  cases unreadable with
  | false => rfl
  | true =>
    simp only [countAfter, abandons, counted, Bool.true_and, Bool.not_true, Bool.false_or,
      decide_eq_true_eq]
    split
    next h => rw [if_neg (Nat.not_lt.mpr h)]
    next h => rw [if_pos (Nat.not_le.mp h)]

theorem Step.counts (hs : s.Sound) (h : Step provesLogin s e t) :
    t.receiver.unreadableDifferences = s.receiver.countsOf e.now s.phase e.action := by
  have hpaced := h.paced hs
  obtain ⟨r, phase, clock⟩ := t
  generalize e.returned = returned at hpaced
  cases hpaced with
  | kept paused counted sound enters fine => exact counted
  | failed hdue counted good pauses => exact counted

theorem Step.counts_other (hs : s.Sound) (h : Step provesLogin s e t) {sequence : Option Int}
    (hother : ∀ unreadable,
      s.receiver.completed e.now s.phase e.action ≠ some (sequence, unreadable)) :
    t.receiver.unreadableDifferences sequence = s.receiver.unreadableDifferences sequence := by
  rw [h.counts hs, countsOf]
  cases hcompleted : s.receiver.completed e.now s.phase e.action with
  | none => rfl
  | some o =>
    obtain ⟨sequence', unreadable⟩ := o
    refine Function.update_of_ne (fun hsame => ?_) _ _
    exact hother unreadable (hsame ▸ hcompleted)

theorem Step.counts_completed (hs : s.Sound) (h : Step provesLogin s e t) {sequence : Option Int}
    {unreadable : Bool}
    (hcompleted : s.receiver.completed e.now s.phase e.action = some (sequence, unreadable)) :
    t.receiver.unreadableDifferences sequence =
      counted maxUnreadableDifferences (s.receiver.unreadableDifferences sequence) unreadable := by
  rw [h.counts hs, countsOf, hcompleted]
  exact (Function.update_self _ _ _).trans (countAfter_eq _ _)

/-- The counts are what is left of the streaks after whole thirties of them. -/
structure Counted (os : List (Option Outcome)) (s : Running) : Prop where
  sound : s.Sound
  counts : ∀ sequence, s.receiver.unreadableDifferences sequence =
    streak (outcomesOf sequence os) % maxUnreadableDifferences

theorem Counted.init (start : Initial config) : Counted [] (Running.init config) :=
  ⟨.init start, fun _ => rfl⟩

theorem Counted.step {os : List (Option Outcome)} {o : Option Outcome} (hs : Counted os s)
    (h : Completes provesLogin s o t) : Counted (os ++ [o]) t := by
  obtain ⟨e, hstep, rfl⟩ := h
  refine ⟨hstep.sound hs.sound, fun sequence => ?_⟩
  by_cases hother : ∀ unreadable,
      s.receiver.completed e.now s.phase e.action ≠ some (sequence, unreadable)
  · rw [outcomesOf_concat_other hother, hstep.counts_other hs.sound hother, hs.counts]
  · obtain ⟨unreadable, hcompleted⟩ := not_forall_not.mp hother
    rw [hstep.counts_completed hs.sound hcompleted, hcompleted, outcomesOf_concat, hs.counts]
    exact counted_streak (by decide) _ _

theorem Counted.run {os : List (Option Outcome)} (start : Initial config)
    (run : Path (Completes provesLogin) (Running.init config) os s) : Counted os s :=
  run.invariant_labels (fun _ _ _ _ hs h => hs.step h) (.init start)

theorem Counted.abandons_iff {os : List (Option Outcome)} (hs : Counted os s)
    (sequence : Option Int) (unreadable : Bool) :
    abandons (s.receiver.unreadableDifferences sequence) unreadable = true ↔
      GivenUp 30 (outcomesOf sequence os ++ [unreadable]) := by
  rw [givenUp_concat (by decide), abandons, hs.counts, Bool.and_eq_true, decide_eq_true_eq]
  rfl

theorem endChannelDifference_banned {boxes : MessageBoxes} {c : Int} {now : Instant}
    {r : UpdatesReceiver} (hg : r.messageBox.Good) (hc : r.messageBox.channelInDiff = some c)
    (h : r.messageBox.endChannelDifference .banned now = .ok boxes) :
    (boxes.retryChannelWithoutDelay c now).entry (.channel c) = none := by
  obtain ⟨e, he, -⟩ := hg.toInv.channelInDiff hc
  obtain ⟨s', hg', -, -, -, -, hrun⟩ :=
    MessageBoxes.endChannelDifference_eq hg hc he .banned now
  obtain ⟨boxes', hrun', hgood⟩ := hg.endChannelDifference hc .banned now
  rw [h] at hrun hrun'
  obtain rfl := Except.ok.inj hrun'
  have hnone : boxes.entry (.channel c) = none := by
    rw [Except.ok.inj hrun]
    exact (MessageBoxes.entry_popEntry hg'.sorted _ _).trans (if_pos rfl)
  rw [MessageBoxes.retryChannelWithoutDelay_of_none hgood.toInv hnone, hnone]

theorem endChannelDifference_issues {boxes : MessageBoxes} {c : Int} {now : Instant}
    {r : UpdatesReceiver} (hg : r.messageBox.Good) (hc : r.messageBox.channelInDiff = some c)
    (h : r.messageBox.endChannelDifference .temporaryServerIssues now = .ok boxes) :
    (boxes.retryChannelWithoutDelay c now).sessionState = r.messageBox.sessionState := by
  obtain ⟨boxes', hrun', hgood⟩ := hg.endChannelDifference hc .temporaryServerIssues now
  rw [h] at hrun'
  obtain rfl := Except.ok.inj hrun'
  have hsame := (SamePosition.endChannelDifference hg hc h).trans
    (SamePosition.retryChannelWithoutDelay hgood.toInv c now)
  exact hsame.sessionState hg.sorted (hgood.retryChannelWithoutDelay c now).sorted

/-- At every point of a run. The outcomes of a sequence change no count but its own. An unreadable
account difference returns an error; the account state is discarded for it if it is given up, and
else the position is kept for every error. An unreadable channel difference ends the recovery of its
channel, as banned if it is given up, and else the position is kept. -/
theorem backlog_abandoned (provesLogin : UpdatesLike → Bool) {config : Config}
    (start : Initial config) {os : List (Option Outcome)} {s t : Running} {e : Resumption}
    (run : Path (Completes provesLogin) (Running.init config) os s)
    (step : Step provesLogin s e t) :
    (∀ sequence, (∀ unreadable,
        s.receiver.completed e.now s.phase e.action ≠ some (sequence, unreadable)) →
      t.receiver.unreadableDifferences sequence = s.receiver.unreadableDifferences sequence) ∧
    (∀ request reply, s.phase = .gettingDifference request → e.action = .difference reply →
      (s.receiver.accountUnreadable reply e.now = true →
        ∃ error, e.returned = some (.error error)) ∧
      (GivenUp 30 (outcomesOf none os ++ [s.receiver.accountUnreadable reply e.now]) →
        s.receiver.messageBox.discardAccountState e.now = .ok t.receiver.messageBox ∧
        t.receiver.messageBox.hasPrimaryState = false) ∧
      (¬GivenUp 30 (outcomesOf none os ++ [s.receiver.accountUnreadable reply e.now]) →
        (∃ error, e.returned = some (.error error)) →
        t.receiver.messageBox = s.receiver.messageBox)) ∧
    ∀ request reply, s.phase = .gettingChannelDifference request →
      e.action = .channelDifference reply → s.receiver.channelUnreadable reply e.now = true →
      ∃ reason boxes, s.receiver.messageBox.endChannelDifference reason e.now = .ok boxes ∧
        t.receiver.messageBox = boxes.retryChannelWithoutDelay request.channelId e.now ∧
        (reason = .banned ↔ GivenUp 30 (outcomesOf (some request.channelId) os ++ [true])) ∧
        (reason = .banned → t.receiver.messageBox.entry (.channel request.channelId) = none) ∧
        (reason ≠ .banned →
          t.receiver.messageBox.sessionState = s.receiver.messageBox.sessionState) := by
  have hs : Counted os s := .run start run
  obtain ⟨hg, hfits⟩ := hs.sound.sound
  refine ⟨fun sequence hother => step.counts_other hs.sound hother, ?_, ?_⟩
  · intro request reply hphase haction
    have hresumed := step.resumed
    rw [hphase, haction] at hresumed
    obtain ⟨-, herror, hboxes⟩ := differenceReply_spec hg hresumed
    rw [← hs.abandons_iff]
    refine ⟨herror, fun hgiven => ?_, fun hkept ⟨error, he⟩ => ?_⟩
    · have hunreadable : s.receiver.accountUnreadable reply e.now = true :=
        (Bool.and_eq_true_iff.mp hgiven).1
      obtain ⟨error, he⟩ := herror hunreadable
      have hdiscard := hboxes error he
      rw [if_pos hgiven] at hdiscard
      exact ⟨hdiscard, discardAccountState_hasPrimaryState hg hdiscard⟩
    · have hsame := hboxes error he
      rwa [if_neg hkept] at hsame
  · intro request reply hphase haction hunreadable
    have hresumed := step.resumed
    rw [hphase, haction] at hresumed
    rw [hphase] at hfits
    obtain ⟨boxes, hend, hboxes⟩ :=
      ((channelDifferenceReply_spec hg hfits hresumed).2 hunreadable).ended
    rw [← hs.abandons_iff]
    change t.receiver.messageBox = _ at hboxes
    rw [hboxes]
    split at hend
    next hgiven =>
      refine ⟨.banned, boxes, hend, rfl, ⟨fun _ => hgiven, fun _ => rfl⟩, fun _ => ?_, ?_⟩
      · exact endChannelDifference_banned hg hfits hend
      · exact fun hne => absurd rfl hne
    next hkept =>
      refine ⟨.temporaryServerIssues, boxes, hend, rfl, ⟨nofun, fun hgiven => absurd hgiven hkept⟩,
        nofun, fun _ => ?_⟩
      exact endChannelDifference_issues hg hfits hend

def sampleConfig : Config := ⟨0, .load ⟨5, 1, 1, 1, []⟩ 0⟩

def sampleRecovery : List (Instant × Action) := sampleLogin ++ [(2, .live none)]

theorem sample_unreadable : ∃ os s e t,
    Path (Completes fun _ => true) (Running.init sampleConfig) os s ∧
      Step (fun _ => true) s e t ∧ e.returned = some (.error .deserialize) ∧
      t.receiver.messageBox = s.receiver.messageBox := by
  obtain ⟨events, s, e, t, request, hrun, hevents, hstep, hphase, haction, hreturned⟩ :
      ∃ events s e t request,
        (Running.init sampleConfig).run (fun _ => true) sampleRecovery = some (events, s) ∧
          events.length = 5 ∧ Step (fun _ => true) s e t ∧
          s.phase = .gettingDifference request ∧ e.action = .difference (.error .deserialize) ∧
          e.returned = some (.error .deserialize) :=
    ⟨_, _, ⟨5, .difference (.error .deserialize), _⟩, ⟨_, _, 5⟩, _, rfl, rfl,
      ⟨by decide, rfl, rfl⟩, rfl, rfl, rfl⟩
  obtain ⟨os, hlength, run⟩ := path_completes (path_of_run hrun)
  obtain ⟨-, haccount, -⟩ := backlog_abandoned _ (.load _ _) run hstep
  refine ⟨os, s, e, t, run, hstep, hreturned, ?_⟩
  refine (haccount request _ hphase haction).2.2 (fun hgiven => ?_) ⟨_, hreturned⟩
  have hle := hgiven.le_length
  have hos := outcomesOf_length_le none os
  rw [List.length_append, List.length_singleton] at hle
  omega

end UpdatesReceiver

end Grammers
