import Grammers.ReceiverSteps

namespace Grammers

open LabelledPath
open Rpc (InvocationError RpcError)

namespace UpdatesReceiver

/-- A receiver with where its `next` is, at the instant it got there. -/
structure Running where
  receiver : UpdatesReceiver
  phase : Phase
  clock : Instant

structure Resumption where
  now : Instant
  action : Action
  returned : Option Returned

/-- `next` is resumed, or called again, no earlier than it stopped. -/
structure Step (provesLogin : UpdatesLike → Bool) (s : Running) (e : Resumption) (t : Running) :
    Prop where
  later : s.clock ≤ e.now
  clock : t.clock = e.now
  resumed : s.receiver.resume provesLogin e.now s.phase e.action =
    some (t.receiver, t.phase, e.returned)

def Running.init (config : Config) : Running := ⟨create config.boxes config.now, .idle, config.now⟩

/-- The actions at their instants, as far as `next` can be resumed with them. -/
def Running.run (provesLogin : UpdatesLike → Bool) (s : Running) :
    List (Instant × Action) → Option (List Resumption × Running)
  | [] => some ([], s)
  | (now, a) :: actions =>
    if s.clock ≤ now then do
      let (r, phase, returned) ← s.receiver.resume provesLogin now s.phase a
      let (events, u) ← Running.run provesLogin ⟨r, phase, now⟩ actions
      some (⟨now, a, returned⟩ :: events, u)
    else none

variable {provesLogin : UpdatesLike → Bool} {config : Config} {s t : Running} {e : Resumption}
  {events : List Resumption}

theorem path_of_run {u : Running} {actions : List (Instant × Action)}
    (h : s.run provesLogin actions = some (events, u)) : Path (Step provesLogin) s events u := by
  induction actions generalizing s events with
  | nil =>
    cases h
    exact Path.nil
  | cons timed actions ih =>
    obtain ⟨now, a⟩ := timed
    simp only [Running.run, Option.ite_none_right_eq_some] at h
    obtain ⟨hlater, h⟩ := h
    obtain ⟨⟨r, phase, returned⟩, hresume, h⟩ := Option.bind_eq_some_iff.mp h
    obtain ⟨⟨rest, u'⟩, hrest, h⟩ := Option.bind_eq_some_iff.mp h
    cases h
    exact Path.cons ⟨hlater, rfl, hresume⟩ (ih hrest)

/-- What holds of a receiver at every point of its runs. -/
structure Running.Sound (s : Running) : Prop where
  sound : UpdatesReceiver.Sound s.receiver s.phase
  due : s.phase.due = true → s.receiver.recoveryPausedUntil ≤ s.clock

theorem Running.Sound.init (h : Initial config) : (Running.init config).Sound :=
  ⟨⟨h.good, trivial⟩, nofun⟩

theorem Step.paced (hs : s.Sound) (h : Step provesLogin s e t) :
    Paced s.receiver s.phase.due e.now (s.receiver.countsOf e.now s.phase e.action)
      (t.receiver, t.phase, e.returned) :=
  resume_paced hs.sound h.resumed

theorem Step.sound (hs : s.Sound) (h : Step provesLogin s e t) : t.Sound := by
  have hpaced := h.paced hs
  obtain ⟨r, phase, clock⟩ := t
  obtain rfl : clock = e.now := h.clock
  generalize e.returned = returned at hpaced
  cases hpaced with
  | kept paused counted sound enters fine =>
    refine ⟨sound, fun hdue => ?_⟩
    have hle := h.later
    rcases enters hdue with hwas | hpast
    · have := hs.due hwas
      show r.recoveryPausedUntil ≤ e.now
      rw [paused]
      exact this.trans hle
    · show r.recoveryPausedUntil ≤ e.now
      rw [paused]
      exact hpast
  | failed hdue counted good pauses => exact ⟨⟨good, trivial⟩, nofun⟩

theorem Running.Sound.run (hs : s.Sound) (run : Path (Step provesLogin) s events t) : t.Sound :=
  run.invariant (fun _ _ _ hs h => h.sound hs) hs

/-- The pause is only ever moved to later. -/
theorem Step.paused_le (hs : s.Sound) (h : Step provesLogin s e t) :
    s.receiver.recoveryPausedUntil ≤ t.receiver.recoveryPausedUntil := by
  have hpaced := h.paced hs
  obtain ⟨r, phase, clock⟩ := t
  generalize e.returned = returned at hpaced
  cases hpaced with
  | kept paused counted sound enters fine => exact paused.ge
  | failed hdue counted good pauses =>
    calc s.receiver.recoveryPausedUntil ≤ s.clock := hs.due hdue
      _ ≤ e.now := h.later
      _ ≤ e.now + recoveryRetryDelay := Nat.le_add_right _ _
      _ ≤ r.recoveryPausedUntil := pauses.second

theorem Running.Sound.paused_le (hs : s.Sound) (run : Path (Step provesLogin) s events t) :
    s.receiver.recoveryPausedUntil ≤ t.receiver.recoveryPausedUntil := by
  induction run with
  | nil => exact Nat.le_refl _
  | cons h _ ih => exact (h.paused_le hs).trans (ih (h.sound hs))

/-- The phases that wait for the reply to a recovery request. -/
def Phase.asks : Phase → Bool
  | .gettingState _ => true
  | .gettingDifference _ => true
  | .gettingChannelDifference _ => true
  | _ => false

theorem Phase.due_of_asks {phase : Phase} (h : phase.asks = true) : phase.due = true := by
  cases phase with
  | gettingState => rfl
  | gettingDifference => rfl
  | gettingChannelDifference => rfl
  | _ => cases h

theorem Step.pauses (hs : s.Sound) (h : Step provesLogin s e t) {error : InvocationError}
    (hdue : s.phase.due = true) (he : e.returned = some (.error error)) :
    PausesFor t.clock error t.receiver.recoveryPausedUntil := by
  have hpaced := h.paced hs
  obtain ⟨r, phase, clock⟩ := t
  obtain rfl : clock = e.now := h.clock
  rw [he] at hpaced
  cases hpaced with
  | kept paused counted sound enters fine => exact absurd rfl (fine hdue error)
  | failed _ counted good pauses => exact pauses

theorem Step.paused_eq_or (hs : s.Sound) (h : Step provesLogin s e t) :
    t.receiver.recoveryPausedUntil = s.receiver.recoveryPausedUntil ∨
      ∃ error, e.returned = some (.error error) ∧
        PausesFor t.clock error t.receiver.recoveryPausedUntil := by
  have hpaced := h.paced hs
  obtain ⟨r, phase, clock⟩ := t
  obtain rfl : clock = e.now := h.clock
  generalize hreturned : e.returned = returned at hpaced
  cases hpaced with
  | kept paused counted sound enters fine => exact Or.inl paused
  | @failed _ error hdue counted good pauses => exact Or.inr ⟨error, rfl, pauses⟩

/-- At every point of a run: the pause never gets shorter from there on; a recovery request is only
made when it is over; if it is answered by an error that is returned, there is a pause of at least a
second and of the wait that the error asks for; and whatever moves the pause is such an error, which
moves it by no more than a minute or that wait. -/
theorem recovery_paced (provesLogin : UpdatesLike → Bool) {config : Config} (start : Initial config)
    {events : List Resumption} {s : Running}
    (run : Path (Step provesLogin) (Running.init config) events s) :
    (∀ later t, Path (Step provesLogin) s later t →
      s.receiver.recoveryPausedUntil ≤ t.receiver.recoveryPausedUntil) ∧
    (s.phase.asks = true → s.receiver.recoveryPausedUntil ≤ s.clock) ∧
    ∀ e t, Step provesLogin s e t →
      (s.phase.asks = true → ∀ error, e.returned = some (.error error) →
        t.clock + fromSecs 1 ≤ t.receiver.recoveryPausedUntil ∧
        ∀ wait, error.retryAfter = some wait → t.clock + wait ≤ t.receiver.recoveryPausedUntil) ∧
      (t.receiver.recoveryPausedUntil ≠ s.receiver.recoveryPausedUntil →
        t.receiver.recoveryPausedUntil ≤ t.clock + fromSecs 60 ∨
        ∃ error wait, e.returned = some (.error error) ∧ error.retryAfter = some wait ∧
          t.receiver.recoveryPausedUntil ≤ t.clock + wait) := by
  have hs : s.Sound := (Running.Sound.init start).run run
  refine ⟨fun later t hlater => hs.paused_le hlater,
    fun hasks => hs.due (Phase.due_of_asks hasks), fun e t hstep => ⟨?_, fun hne => ?_⟩⟩
  · intro hasks error he
    have hpauses := hstep.pauses hs (Phase.due_of_asks hasks) he
    exact ⟨hpauses.second, hpauses.wait⟩
  · rcases hstep.paused_eq_or hs with heq | ⟨error, he, hpauses⟩
    · exact absurd heq hne
    · rcases hpauses.limit with hlimit | ⟨wait, hwait, hlimit⟩
      · exact Or.inl hlimit
      · exact Or.inr ⟨error, wait, he, hwait, hlimit⟩

def sampleFlood : InvocationError := .rpc ⟨420, "FLOOD_WAIT".toList, some 90, none⟩

def sampleLogin : List (Instant × Action) :=
  [(0, .start 0), (0, .live none), (1, .self (.ok (some (.user 7 none none none)))), (2, .sample)]

theorem sample_flood : ∃ events s e t,
    (Running.init ⟨0, .new 0⟩).run (fun _ => true) sampleLogin = some (events, s) ∧
      Step (fun _ => true) s e t ∧ e.returned = some (.error sampleFlood) ∧ t.clock = 5 ∧
      5 + fromSecs 90 ≤ t.receiver.recoveryPausedUntil := by
  obtain ⟨events, s, e, t, hrun, hstep, hreturned, hasks, hclock⟩ : ∃ events s e t,
      (Running.init ⟨0, .new 0⟩).run (fun _ => true) sampleLogin = some (events, s) ∧
        Step (fun _ => true) s e t ∧ e.returned = some (.error sampleFlood) ∧
        s.phase.asks = true ∧ t.clock = 5 :=
    ⟨_, _, ⟨5, .state (.error sampleFlood), _⟩, ⟨_, _, 5⟩, rfl, ⟨by decide, rfl, rfl⟩, rfl, rfl, rfl⟩
  obtain ⟨-, -, hnext⟩ := recovery_paced _ (.new 0) (path_of_run hrun)
  have hwait := ((hnext e t hstep).1 hasks sampleFlood hreturned).2 (fromSecs 90) rfl
  rw [hclock] at hwait
  exact ⟨events, s, e, t, hrun, hstep, hreturned, hclock, hwait⟩

end UpdatesReceiver

end Grammers
