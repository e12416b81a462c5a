import Grammers.LabelledPath

namespace Grammers

namespace PendingConnection

open LabelledPath

/-- How far a caller is with dropping the receiver of its response. -/
inductive Caller where
  | live
  | closed
  | dirtied
  | gone
  deriving DecidableEq

/-- How far the runner is with a poll: it stores its waker, swaps the flag and scans the requests. -/
inductive Poll where
  | idle
  | stored
  | scanning (kept todo : List Nat)
  deriving DecidableEq

/-- A group and what it shares with the callers. The runner is `awake` while it goes round its loop,
and it is `woken` when it will poll again before it sleeps. -/
structure State where
  requests : List Nat
  watched : Nat
  dirty : Bool
  runner : Option Nat
  callers : Nat → Caller
  registered : Nat → Bool
  poll : Poll
  waker : Nat
  awake : Bool
  woken : Bool
  result : Option Bool
  aborted : Bool
  removed : List Nat

/-- A group with the request it was made for, by a runner that is awake; no poll has been made. -/
def init (request : Nat) : State where
  requests := [request]
  watched := 0
  dirty := false
  runner := none
  callers := fun _ => .live
  registered := fun _ => false
  poll := .idle
  waker := 0
  awake := true
  woken := true
  result := none
  aborted := false
  removed := []

inductive Action where
  | arrive (request : Nat)
  | poll (waker : Nat)
  | swap
  | scan
  | finish
  | cancel
  | sleep
  | wake
  | close (request : Nat)
  | setDirty (request : Nat)
  | wakeRunner (request : Nat)
  deriving DecidableEq

def State.setCaller (s : State) (request : Nat) (caller : Caller) : State :=
  { s with callers := fun r => if r = request then caller else s.callers r }

/-- A step of the runner or of a caller. A request is added by a runner that is awake, which then goes
round its loop again; a group that has been reported closed is dropped, which takes its waker, and its
setup is aborted; anything else may wake the runner as well. -/
def step (s : State) : Action → Option State
  | .arrive request =>
    if s.awake = true ∧ s.poll = .idle ∧ s.result ≠ some true ∧ s.registered request = false ∧
        request ∉ s.requests then
      some { s with requests := s.requests ++ [request], woken := true }
    else none
  | .poll waker =>
    if s.awake = true ∧ s.poll = .idle ∧ s.result ≠ some true then
      some { s with poll := .stored, runner := some waker, waker := waker, woken := false }
    else none
  | .swap =>
    if s.poll = .stored then
      let start := if s.dirty then 0 else s.watched
      some { s with
        dirty := false, poll := .scanning (s.requests.take start) (s.requests.drop start) }
    else none
  | .scan =>
    match s.poll with
    | .scanning kept (request :: todo) =>
      if s.callers request = .live then
        some { s with
          registered := fun r => if r = request then true else s.registered r
          poll := .scanning (kept ++ [request]) todo }
      else some { s with removed := request :: s.removed, poll := .scanning kept todo }
    | _ => none
  | .finish =>
    match s.poll with
    | .scanning kept [] => some { s with
        requests := kept, watched := kept.length, poll := .idle, result := some kept.isEmpty }
    | _ => none
  | .cancel =>
    if s.result = some true ∧ s.aborted = false then
      some { s with runner := none, aborted := true }
    else none
  | .sleep =>
    if s.awake = true ∧ s.poll = .idle ∧ s.result = some false ∧ s.woken = false then
      some { s with awake := false }
    else none
  | .wake => if s.awake = false then some { s with awake := true, woken := true } else none
  | .close request =>
    if s.callers request = .live then
      some (s.setCaller request (if s.registered request then .closed else .gone))
    else none
  | .setDirty request =>
    if s.callers request = .closed then some { s.setCaller request .dirtied with dirty := true }
    else none
  | .wakeRunner request =>
    if s.callers request = .dirtied then
      let wakes : Bool := s.runner = some s.waker
      some { s.setCaller request .gone with
        runner := none, awake := s.awake || wakes, woken := s.woken || wakes }
    else none

def Step (s : State) (a : Action) (t : State) : Prop := step s a = some t

/-- The last poll returned false and the runner has not been woken since. -/
def State.Asleep (s : State) : Prop := s.poll = .idle ∧ s.result = some false ∧ s.woken = false

/-- The requests that have been polled in this poll or else in the last one. -/
def State.polled (s : State) : List Nat :=
  match s.poll with
  | .scanning kept _ => kept
  | _ => s.requests.take s.watched

structure Invariant (s : State) : Prop where
  watched : s.watched ≤ s.requests.length
  registered : ∀ r ∈ s.polled, s.registered r = true
  flagged : ∀ r ∈ s.polled, s.callers r = .dirtied ∨ s.callers r = .gone → s.dirty = true
  noticed : s.woken = false → s.poll ≠ .stored → ∀ r ∈ s.polled, s.callers r ≠ .gone
  runner : s.woken = false → s.result ≠ some true → s.runner = some s.waker
  removed : ∀ r ∈ s.removed, s.callers r ≠ .live
  swept : s.woken = false → s.poll = .idle → s.requests.length ≤ s.watched
  refused : s.result = some false → s.requests ≠ []
  reported : s.result = some true → s.poll = .idle ∧ s.requests = []
  asleep : s.awake = false → s.Asleep

theorem invariant_init (request : Nat) : Invariant (init request) where
  watched := Nat.zero_le _
  registered := nofun
  flagged := nofun
  noticed := nofun
  runner := nofun
  removed := nofun
  swept := nofun
  refused := nofun
  reported := nofun
  asleep := nofun

namespace Invariant

variable {s t : State} {request : Nat}

theorem arrive (h : Invariant s) (hstep : Step s (.arrive request) t) : Invariant t := by
  simp only [Step, PendingConnection.step, Option.ite_none_right_eq_some, Option.some.injEq] at hstep
  obtain ⟨⟨hawake, hidle, hopen, -, -⟩, rfl⟩ := hstep
  have hpolled : (s.requests ++ [request]).take s.watched = s.polled := by
    rw [List.take_append_of_le_length h.watched]
    simp only [State.polled, hidle]
  refine ⟨?_, fun r hr => ?_, fun r hr => ?_, nofun, nofun, h.removed, nofun, ?_, ?_, ?_⟩
  · have := h.watched
    simp only [List.length_append]
    omega
  · simp only [State.polled, hidle] at hr
    exact h.registered r (hpolled ▸ hr)
  · simp only [State.polled, hidle] at hr
    exact h.flagged r (hpolled ▸ hr)
  · intro _
    simp
  · exact fun hresult => absurd hresult hopen
  · intro hasleep
    rw [hawake] at hasleep
    cases hasleep

theorem poll {waker : Nat} (h : Invariant s) (hstep : Step s (.poll waker) t) : Invariant t := by
  simp only [Step, PendingConnection.step, Option.ite_none_right_eq_some, Option.some.injEq] at hstep
  obtain ⟨⟨hawake, hidle, hopen⟩, rfl⟩ := hstep
  have hpolled : s.requests.take s.watched = s.polled := by simp only [State.polled, hidle]
  refine ⟨h.watched, fun r hr => h.registered r (hpolled ▸ hr), fun r hr => h.flagged r (hpolled ▸ hr),
    fun _ hne => absurd rfl hne, fun _ _ => rfl, h.removed, nofun, h.refused, ?_, ?_⟩
  · exact fun hresult => absurd hresult hopen
  · intro hasleep
    rw [hawake] at hasleep
    cases hasleep

theorem not_reported (h : Invariant s) (hpoll : s.poll ≠ .idle) : s.result ≠ some true :=
  fun hresult => hpoll (h.reported hresult).1

theorem awake (h : Invariant s) (hpoll : s.poll ≠ .idle) : s.awake = true := by
  cases hawake : s.awake with
  | true => rfl
  | false => exact absurd (h.asleep hawake).1 hpoll

theorem swap (h : Invariant s) (hstep : Step s .swap t) : Invariant t := by
  simp only [Step, PendingConnection.step, Option.ite_none_right_eq_some, Option.some.injEq] at hstep
  obtain ⟨hstored, rfl⟩ := hstep
  have hbusy : s.poll ≠ .idle := by
    rw [hstored]
    exact nofun
  have hpolled : s.polled = s.requests.take s.watched := by simp only [State.polled, hstored]
  have hkept : ∀ r ∈ s.requests.take (if s.dirty then 0 else s.watched),
      r ∈ s.polled ∧ s.callers r ≠ .dirtied ∧ s.callers r ≠ .gone := by
    intro r hr
    by_cases hdirty : s.dirty = true
    · simp [hdirty] at hr
    · rw [if_neg hdirty, ← hpolled] at hr
      exact ⟨hr, fun hc => hdirty (h.flagged r hr (Or.inl hc)),
        fun hc => hdirty (h.flagged r hr (Or.inr hc))⟩
  refine ⟨h.watched, fun r hr => h.registered r (hkept r hr).1,
    fun r hr hc => absurd hc (not_or.mpr (hkept r hr).2), fun _ _ r hr => (hkept r hr).2.2,
    h.runner, h.removed, nofun, h.refused, ?_, ?_⟩
  · exact fun hresult => absurd hresult (h.not_reported hbusy)
  · intro hasleep
    rw [h.awake hbusy] at hasleep
    cases hasleep

theorem scan (h : Invariant s) (hstep : Step s .scan t) : Invariant t := by
  simp only [Step, PendingConnection.step] at hstep
  split at hstep
  next kept request todo hpoll =>
    have hpolled : s.polled = kept := by simp only [State.polled, hpoll]
    have hscanning : s.poll ≠ .stored := by simp [hpoll]
    have hbusy : s.poll ≠ .idle := by simp [hpoll]
    have hreported := h.not_reported hbusy
    have hawake := h.awake hbusy
    split at hstep
    next hlive =>
      cases hstep
      refine ⟨h.watched, fun r hr => ?_, fun r hr hc => ?_, fun hwoken _ r hr => ?_, h.runner,
        h.removed, nofun, h.refused, fun hresult => absurd hresult hreported, ?_⟩
      · by_cases he : r = request
        · exact if_pos he
        · have hkept : r ∈ kept := by simpa [State.polled, he] using hr
          exact (if_neg he).trans (h.registered r (hpolled ▸ hkept))
      · rcases List.mem_append.mp hr with hr | hr
        · exact h.flagged r (hpolled ▸ hr) hc
        · obtain rfl := List.mem_singleton.mp hr
          simp [hlive] at hc
      · rcases List.mem_append.mp hr with hr | hr
        · exact h.noticed hwoken hscanning r (hpolled ▸ hr)
        · obtain rfl := List.mem_singleton.mp hr
          simp [hlive]
      · intro hasleep
        rw [hawake] at hasleep
        cases hasleep
    next hclosed =>
      cases hstep
      refine ⟨h.watched, fun r hr => h.registered r (hpolled ▸ hr),
        fun r hr => h.flagged r (hpolled ▸ hr),
        fun hwoken _ r hr => h.noticed hwoken hscanning r (hpolled ▸ hr), h.runner,
        List.forall_mem_cons.mpr ⟨hclosed, h.removed⟩, nofun, h.refused,
        fun hresult => absurd hresult hreported, ?_⟩
      intro hasleep
      rw [hawake] at hasleep
      cases hasleep
  next => cases hstep

theorem finish (h : Invariant s) (hstep : Step s .finish t) : Invariant t := by
  simp only [Step, PendingConnection.step] at hstep
  split at hstep
  next kept hpoll =>
    cases hstep
    have hpolled : kept.take kept.length = s.polled := by
      simp only [State.polled, hpoll, List.take_length]
    have hscanning : s.poll ≠ .stored := by simp [hpoll]
    have hbusy : s.poll ≠ .idle := by simp [hpoll]
    refine ⟨Nat.le_refl _, fun r hr => h.registered r (hpolled ▸ hr),
      fun r hr => h.flagged r (hpolled ▸ hr),
      fun hwoken _ r hr => h.noticed hwoken hscanning r (hpolled ▸ hr),
      fun hwoken _ => h.runner hwoken (h.not_reported hbusy), h.removed, fun _ _ => Nat.le_refl _,
      ?_, ?_, ?_⟩
    · rintro hresult rfl
      cases hresult
    · intro hresult
      exact ⟨rfl, List.isEmpty_iff.mp (Option.some.inj hresult)⟩
    · intro hasleep
      rw [h.awake hbusy] at hasleep
      cases hasleep
  next => cases hstep

theorem cancel (h : Invariant s) (hstep : Step s .cancel t) : Invariant t := by
  simp only [Step, PendingConnection.step, Option.ite_none_right_eq_some, Option.some.injEq] at hstep
  obtain ⟨⟨hresult, -⟩, rfl⟩ := hstep
  exact ⟨h.watched, h.registered, h.flagged, h.noticed, fun _ hne => absurd hresult hne, h.removed,
    h.swept, h.refused, h.reported, h.asleep⟩

theorem sleep (h : Invariant s) (hstep : Step s .sleep t) : Invariant t := by
  simp only [Step, PendingConnection.step, Option.ite_none_right_eq_some, Option.some.injEq] at hstep
  obtain ⟨⟨-, hidle, hresult, hwoken⟩, rfl⟩ := hstep
  exact ⟨h.watched, h.registered, h.flagged, h.noticed, h.runner, h.removed, h.swept, h.refused,
    h.reported, fun _ => ⟨hidle, hresult, hwoken⟩⟩

theorem wake (h : Invariant s) (hstep : Step s .wake t) : Invariant t := by
  simp only [Step, PendingConnection.step, Option.ite_none_right_eq_some, Option.some.injEq] at hstep
  obtain ⟨-, rfl⟩ := hstep
  exact ⟨h.watched, h.registered, h.flagged, nofun, nofun, h.removed, nofun, h.refused, h.reported,
    nofun⟩

theorem close (h : Invariant s) (hstep : Step s (.close request) t) : Invariant t := by
  simp only [Step, PendingConnection.step, Option.ite_none_right_eq_some, Option.some.injEq] at hstep
  obtain ⟨hlive, rfl⟩ := hstep
  have hcaller : ∀ r ∈ s.polled, r = request →
      (if s.registered request then Caller.closed else .gone) = .closed := by
    rintro r hr rfl
    rw [h.registered r hr, if_pos rfl]
  refine ⟨h.watched, h.registered, fun r hr hc => ?_, fun hwoken hne r hr => ?_, h.runner,
    fun r hr => ?_, h.swept, h.refused, h.reported, h.asleep⟩
  · by_cases he : r = request
    · simp only [State.setCaller, if_pos he, hcaller r hr he] at hc
      simp at hc
    · simp only [State.setCaller, if_neg he] at hc
      exact h.flagged r hr hc
  · by_cases he : r = request
    · simp only [State.setCaller, if_pos he, hcaller r hr he]
      simp
    · simp only [State.setCaller, if_neg he]
      exact h.noticed hwoken hne r hr
  · by_cases he : r = request
    · simp only [State.setCaller, if_pos he]
      split <;> simp
    · simp only [State.setCaller, if_neg he]
      exact h.removed r hr

theorem setDirty (h : Invariant s) (hstep : Step s (.setDirty request) t) : Invariant t := by
  simp only [Step, PendingConnection.step, Option.ite_none_right_eq_some, Option.some.injEq] at hstep
  obtain ⟨hclosed, rfl⟩ := hstep
  refine ⟨h.watched, h.registered, fun _ _ _ => rfl, fun hwoken hne r hr => ?_, h.runner,
    fun r hr => ?_, h.swept, h.refused, h.reported, h.asleep⟩
  · by_cases he : r = request
    · simp only [State.setCaller, if_pos he]
      simp
    · simp only [State.setCaller, if_neg he]
      exact h.noticed hwoken hne r hr
  · by_cases he : r = request
    · simp only [State.setCaller, if_pos he]
      simp
    · simp only [State.setCaller, if_neg he]
      exact h.removed r hr

theorem wakeRunner (h : Invariant s) (hstep : Step s (.wakeRunner request) t) : Invariant t := by
  simp only [Step, PendingConnection.step, Option.ite_none_right_eq_some, Option.some.injEq] at hstep
  obtain ⟨hdirtied, rfl⟩ := hstep
  -- As long as the runner has not been woken its waker is there to be taken.
  have hwoken : s.result ≠ some true →
      (s.woken || decide (s.runner = some s.waker)) = true := by
    intro hopen
    cases hw : s.woken with
    | true => rfl
    | false => simp [h.runner hw hopen]
  refine ⟨h.watched, h.registered, fun r hr hc => ?_, fun hnot _ r hr => ?_, fun hnot hopen => ?_,
    fun r hr => ?_, fun hnot hidle => ?_, h.refused, h.reported, fun hasleep => ?_⟩
  · by_cases he : r = request
    · exact h.flagged r hr (Or.inl (he ▸ hdirtied))
    · simp only [State.setCaller, if_neg he] at hc
      exact h.flagged r hr hc
  · by_cases hopen : s.result = some true
    · obtain ⟨hidle, hnil⟩ := h.reported hopen
      simp [State.polled, State.setCaller, hidle, hnil] at hr
    · exact Bool.noConfusion ((hwoken hopen).symm.trans hnot)
  · exact Bool.noConfusion ((hwoken hopen).symm.trans hnot)
  · by_cases he : r = request
    · simp only [State.setCaller, if_pos he]
      simp
    · simp only [State.setCaller, if_neg he]
      exact h.removed r hr
  · exact h.swept (Bool.or_eq_false_iff.mp hnot).1 hidle
  · obtain ⟨hawake, hother⟩ := Bool.or_eq_false_iff.mp hasleep
    obtain ⟨-, hresult, hnot⟩ := h.asleep hawake
    have hopen : s.result ≠ some true := by simp [hresult]
    rw [hnot, hother] at hwoken
    exact Bool.noConfusion (hwoken hopen)

theorem step {a : Action} (h : Invariant s) (hstep : Step s a t) : Invariant t := by
  cases a with
  | arrive => exact h.arrive hstep
  | poll => exact h.poll hstep
  | swap => exact h.swap hstep
  | scan => exact h.scan hstep
  | finish => exact h.finish hstep
  | cancel => exact h.cancel hstep
  | sleep => exact h.sleep hstep
  | wake => exact h.wake hstep
  | close => exact h.close hstep
  | setDirty => exact h.setDirty hstep
  | wakeRunner => exact h.wakeRunner hstep

/-- While the runner sleeps no caller of the group has gone. -/
theorem not_gone (h : Invariant s) (hasleep : s.Asleep) : ∀ r ∈ s.requests, s.callers r ≠ .gone := by
  obtain ⟨hidle, -, hwoken⟩ := hasleep
  intro r hr
  have hpolled : s.polled = s.requests := by
    simp only [State.polled, hidle]
    exact List.take_of_length_le (h.swept hwoken hidle)
  exact h.noticed hwoken (by simp [hidle]) r (hpolled ▸ hr)

end Invariant

def Action.isArrival : Action → Bool
  | arrive _ => true
  | _ => false

def Action.ofRunner : Action → Bool
  | wake | close _ | setDirty _ | wakeRunner _ => false
  | _ => true

/-- The setup has been aborted, or else the runner can do that and nothing before it. -/
def State.CancelsSetup (s : State) : Prop :=
  s.aborted = true ∨ (∃ t, Step s .cancel t ∧ t.aborted = true) ∧
    ∀ a t, Step s a t → a.ofRunner = true → a = .cancel

theorem Invariant.cancelsSetup {s : State} (h : Invariant s) (hresult : s.result = some true) :
    s.CancelsSetup := by
  obtain ⟨hidle, -⟩ := h.reported hresult
  cases haborted : s.aborted with
  | true => exact Or.inl haborted
  | false =>
    refine Or.inr ⟨⟨_, if_pos ⟨hresult, haborted⟩, rfl⟩, fun a t hstep hrunner => ?_⟩
    unfold Step PendingConnection.step at hstep
    cases a with
    | cancel => rfl
    | arrive => simp [hresult] at hstep
    | poll => simp [hresult] at hstep
    | swap => simp [hidle] at hstep
    | scan => simp [hidle] at hstep
    | finish => simp [hidle] at hstep
    | sleep => simp [hresult] at hstep
    | wake => cases hrunner
    | close => cases hrunner
    | setDirty => cases hrunner
    | wakeRunner => cases hrunner

/-- A group whose callers have all gone, before the next poll is over. -/
def State.Abandoned (s : State) : Prop :=
  match s.poll with
  | .scanning kept todo => kept = [] ∧ ∀ r ∈ todo, s.callers r = .gone
  | _ => ∀ r ∈ s.requests, s.callers r = .gone

/-- The runner does not sleep on an abandoned group, and its next poll reports it closed. -/
def Reported (taken : List Action) (s : State) : Prop :=
  .sleep ∉ taken ∧ if .finish ∈ taken then s.result = some true else s.Abandoned

theorem Invariant.not_asleep {s : State} (h : Invariant s)
    (hgone : ∀ r ∈ s.requests, s.callers r = .gone) : ¬s.Asleep := by
  intro hasleep
  obtain ⟨r, hr⟩ := List.exists_mem_of_ne_nil _ (h.refused hasleep.2.1)
  exact h.not_gone hasleep r hr (hgone r hr)

theorem gone_step {s t : State} {a : Action} (hstep : Step s a t) {r : Nat}
    (h : s.callers r = .gone) : t.callers r = .gone := by
  have hset : ∀ {request : Nat} {caller : Caller}, s.callers request ≠ .gone →
      (s.setCaller request caller).callers r = .gone := by
    intro request caller hne
    have hr : r ≠ request := by
      rintro rfl
      exact hne h
    simp only [State.setCaller, if_neg hr, h]
  unfold Step step at hstep
  cases a with
  | arrive => grind
  | poll => grind
  | swap => grind
  | scan => grind
  | finish => grind
  | cancel => grind
  | sleep => grind
  | wake => grind
  | close => grind
  | setDirty => grind
  | wakeRunner => grind

theorem abandoned_step {s t : State} {a : Action} (hinv : Invariant s) (h : s.Abandoned)
    (harrival : a.isArrival = false) (hstep : Step s a t) : Reported [a] t := by
  have hgone : ∀ r, s.callers r = .gone → t.callers r = .gone := fun r => gone_step hstep
  -- What changes neither the poll nor the group leaves it abandoned.
  have hsame : a ≠ .sleep → a ≠ .finish → t.poll = s.poll → t.requests = s.requests →
      Reported [a] t := by
    intro hsleep hfinish hpoll hrequests
    refine ⟨by simpa using hsleep.symm, ?_⟩
    rw [if_neg (by simpa using hfinish.symm)]
    unfold State.Abandoned at h ⊢
    rw [hpoll, hrequests]
    split at h
    · exact ⟨h.1, fun r hr => hgone r (h.2 r hr)⟩
    · exact fun r hr => hgone r (h r hr)
  have hrequests : (∀ kept todo, s.poll ≠ .scanning kept todo) →
      ∀ r ∈ s.requests, s.callers r = .gone := by
    intro hpoll
    unfold State.Abandoned at h
    split at h
    next kept todo hscanning => exact absurd hscanning (hpoll kept todo)
    next => exact h
  unfold Step step at hstep
  cases a with
  | arrive => cases harrival
  | poll waker =>
    simp only [Option.ite_none_right_eq_some, Option.some.injEq] at hstep
    obtain ⟨⟨-, hidle, -⟩, rfl⟩ := hstep
    exact ⟨by simp, hrequests (by simp [hidle])⟩
  | swap =>
    simp only [Option.ite_none_right_eq_some, Option.some.injEq] at hstep
    obtain ⟨hstored, rfl⟩ := hstep
    have hall := hrequests (by simp [hstored])
    refine ⟨by simp, ?_, fun r hr => hall r (List.mem_of_mem_drop hr)⟩
    by_cases hdirty : s.dirty = true
    · rw [if_pos hdirty]
      rfl
    · rw [if_neg hdirty]
      refine List.eq_nil_iff_forall_not_mem.mpr fun r hr => hdirty (hinv.flagged r ?_ (Or.inr ?_))
      · simpa only [State.polled, hstored] using hr
      · exact hall r (List.mem_of_mem_take hr)
  | scan =>
    simp only at hstep
    split at hstep
    next kept request todo hpoll =>
      obtain ⟨rfl, htodo⟩ : kept = [] ∧ ∀ r ∈ request :: todo, s.callers r = .gone := by
        simpa only [State.Abandoned, hpoll] using h
      obtain ⟨hrequest, htodo⟩ := List.forall_mem_cons.mp htodo
      rw [if_neg (by rw [hrequest]; decide)] at hstep
      cases hstep
      exact ⟨by simp, rfl, htodo⟩
    next => cases hstep
  | finish =>
    simp only at hstep
    split at hstep
    next kept hpoll =>
      cases hstep
      obtain ⟨rfl, -⟩ : kept = [] ∧ ∀ r ∈ ([] : List Nat), s.callers r = .gone := by
        simpa only [State.Abandoned, hpoll] using h
      exact ⟨by simp, rfl⟩
    next => cases hstep
  | cancel =>
    simp only [Option.ite_none_right_eq_some, Option.some.injEq] at hstep
    obtain ⟨-, rfl⟩ := hstep
    exact hsame nofun nofun rfl rfl
  | sleep =>
    simp only [Option.ite_none_right_eq_some, Option.some.injEq] at hstep
    obtain ⟨⟨-, hidle, hresult, hwoken⟩, -⟩ := hstep
    exact absurd ⟨hidle, hresult, hwoken⟩ (hinv.not_asleep (hrequests (by simp [hidle])))
  | wake =>
    simp only [Option.ite_none_right_eq_some, Option.some.injEq] at hstep
    obtain ⟨-, rfl⟩ := hstep
    exact hsame nofun nofun rfl rfl
  | close =>
    simp only [Option.ite_none_right_eq_some, Option.some.injEq] at hstep
    obtain ⟨-, rfl⟩ := hstep
    exact hsame nofun nofun rfl rfl
  | setDirty =>
    simp only [Option.ite_none_right_eq_some, Option.some.injEq] at hstep
    obtain ⟨-, rfl⟩ := hstep
    exact hsame nofun nofun rfl rfl
  | wakeRunner =>
    simp only [Option.ite_none_right_eq_some, Option.some.injEq] at hstep
    obtain ⟨-, rfl⟩ := hstep
    exact hsame nofun nofun rfl rfl

/-- A group that was reported closed is not polled again. -/
theorem reported_step {s t : State} {a : Action} (hinv : Invariant s) (hresult : s.result = some true)
    (hstep : Step s a t) : a ≠ .sleep ∧ t.result = some true := by
  obtain ⟨hidle, -⟩ := hinv.reported hresult
  unfold Step step at hstep
  cases a <;> simp only [hidle, hresult] at hstep <;> grind [State.setCaller]

theorem Reported.step {taken : List Action} {s t : State} {a : Action} (h : Reported taken s)
    (hinv : Invariant s) (harrival : a.isArrival = false) (hstep : Step s a t) :
    Reported (taken ++ [a]) t := by
  obtain ⟨hsleep, h⟩ := h
  by_cases hfinish : .finish ∈ taken
  · rw [if_pos hfinish] at h
    obtain ⟨hne, hresult⟩ := reported_step hinv h hstep
    refine ⟨?_, (if_pos (List.mem_append_left _ hfinish)).mpr hresult⟩
    simpa [hsleep] using hne.symm
  · rw [if_neg hfinish] at h
    have hone := abandoned_step hinv h harrival hstep
    simpa [Reported, hsleep, hfinish] using hone

/-- A second request arrives after a poll; both callers drop their receivers, one while the runner
sleeps and one while it is awake again. -/
def dropped : List Action :=
  [.poll 1, .swap, .scan, .finish, .arrive 1, .poll 1, .swap, .scan, .finish, .sleep, .close 0,
    .setDirty 0, .wakeRunner 0, .close 1, .setDirty 1, .wakeRunner 1]

end PendingConnection

end Grammers
