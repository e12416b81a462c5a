import Mathlib.Data.List.Nodup
import Grammers.LabelledPath

namespace Grammers.Queue

open LabelledPath

/-- Wakers, with the task each of them wakes; the comparison may miss that two wake one task. -/
structure Waking (ω κ : Type) where
  task : ω → κ
  willWake : ω → ω → Bool
  sound : ∀ a b, willWake a b = true → task a = task b

structure State (τ ω : Type) where
  items : List τ
  waker : Option ω
  senders : Nat
  closed : Bool
  deriving DecidableEq

inductive Poll (τ : Type) where
  | ready (item : Option τ)
  | pending
  deriving DecidableEq

inductive TryRecvError where
  | empty
  | disconnected
  deriving DecidableEq

variable {τ ω κ : Type}

namespace State

def unboundedChannel : State τ ω where
  items := []
  waker := none
  senders := 1
  closed := false

/-- What happens under the lock: the item comes back, or the waker to wake is taken. -/
def send (s : State τ ω) (item : τ) : Except τ (Option ω) × State τ ω :=
  if s.closed then (.error item, s)
  else (.ok s.waker, { s with items := s.items ++ [item], waker := none })

def clone (s : State τ ω) : State τ ω := { s with senders := s.senders + 1 }

def dropSender (s : State τ ω) : Option ω × State τ ω :=
  let s := { s with senders := s.senders - 1 }
  if s.senders = 0 then (s.waker, { s with waker := none }) else (none, s)

def pollRecv (k : Waking ω κ) (s : State τ ω) (waker : ω) : Poll τ × State τ ω :=
  match s.items with
  | item :: items => (.ready (some item), { s with items := items })
  | [] =>
    if s.closed ∨ s.senders = 0 then (.ready none, s)
    else if s.waker.any fun stored => k.willWake stored waker then (.pending, s)
    else (.pending, { s with waker := some waker })

def tryRecv (s : State τ ω) : Except TryRecvError τ × State τ ω :=
  match s.items with
  | item :: items => (.ok item, { s with items := items })
  | [] => if s.closed ∨ s.senders = 0 then (.error .disconnected, s) else (.error .empty, s)

def close (s : State τ ω) : State τ ω := { s with closed := true }

/-- The items are dropped after the lock is released. -/
def dropReceiver (s : State τ ω) : List τ × State τ ω :=
  (s.items, { s with closed := true, waker := none, items := [] })

end State

/-- The queue, the handles that exist, and the wakers that have been taken and not yet woken. -/
structure Sys (τ ω : Type) where
  state : State τ ω
  handles : Nat
  receiver : Bool
  inFlight : List ω
  deriving DecidableEq

def Sys.new : Sys τ ω where
  state := .unboundedChannel
  handles := 1
  receiver := true
  inFlight := []

inductive Event (τ ω : Type) where
  | sent (item : τ) (taken : Option ω)
  | refused (item : τ)
  | cloned
  | senderDropped (taken : Option ω)
  | woken (waker : ω)
  | polled (waker : ω) (result : Poll τ)
  | tried (result : Except TryRecvError τ)
  | closed
  | cancelled
  | receiverDropped (items : List τ)

/-- One step of a sender or of the receiver: what it does under the lock, or the wake that
follows outside it. -/
inductive Step (k : Waking ω κ) : Sys τ ω → Event τ ω → Sys τ ω → Prop where
  | sent {s : Sys τ ω} {item : τ} {taken : Option ω} {state : State τ ω} (handle : 0 < s.handles)
      (result : s.state.send item = (.ok taken, state)) :
      Step k s (.sent item taken)
        { s with state := state, inFlight := taken.toList ++ s.inFlight }
  | refused {s : Sys τ ω} {item back : τ} {state : State τ ω} (handle : 0 < s.handles)
      (result : s.state.send item = (.error back, state)) :
      Step k s (.refused back) { s with state := state }
  | cloned {s : Sys τ ω} (handle : 0 < s.handles) :
      Step k s .cloned { s with state := s.state.clone, handles := s.handles + 1 }
  | senderDropped {s : Sys τ ω} {taken : Option ω} {state : State τ ω} (handle : 0 < s.handles)
      (result : s.state.dropSender = (taken, state)) :
      Step k s (.senderDropped taken)
        { s with state := state, handles := s.handles - 1, inFlight := taken.toList ++ s.inFlight }
  | woken {s : Sys τ ω} {pre post : List ω} {waker : ω} (taken : s.inFlight = pre ++ waker :: post) :
      Step k s (.woken waker) { s with inFlight := pre ++ post }
  | polled {s : Sys τ ω} {waker : ω} {poll : Poll τ} {state : State τ ω}
      (receiver : s.receiver = true) (result : s.state.pollRecv k waker = (poll, state)) :
      Step k s (.polled waker poll) { s with state := state }
  | tried {s : Sys τ ω} {item : Except TryRecvError τ} {state : State τ ω}
      (receiver : s.receiver = true) (result : s.state.tryRecv = (item, state)) :
      Step k s (.tried item) { s with state := state }
  | closed {s : Sys τ ω} (receiver : s.receiver = true) :
      Step k s .closed { s with state := s.state.close }
  | cancelled {s : Sys τ ω} (receiver : s.receiver = true) : Step k s .cancelled s
  | receiverDropped {s : Sys τ ω} {items : List τ} {state : State τ ω}
      (receiver : s.receiver = true) (result : s.state.dropReceiver = (items, state)) :
      Step k s (.receiverDropped items) { s with state := state, receiver := false }

namespace Event

def offered : Event τ ω → List τ
  | .sent item _ => [item]
  | .refused item => [item]
  | _ => []

def accepted : Event τ ω → List τ
  | .sent item _ => [item]
  | _ => []

def rejected : Event τ ω → List τ
  | .refused item => [item]
  | _ => []

def received : Event τ ω → List τ
  | .polled _ (.ready (some item)) => [item]
  | .tried (.ok item) => [item]
  | _ => []

def dropped : Event τ ω → List τ
  | .receiverDropped items => items
  | _ => []

def takes : Event τ ω → Option ω
  | .sent _ taken => taken
  | .senderDropped taken => taken
  | _ => none

def IsPoll : Event τ ω → Prop
  | .polled _ _ => True
  | _ => False

/-- The waker of a task is woken. -/
def Wakes (k : Waking ω κ) (waker : ω) : Event τ ω → Prop
  | .woken w => k.task w = k.task waker
  | _ => False

end Event

variable {k : Waking ω κ} {s t : Sys τ ω} {e : Event τ ω} {es : List (Event τ ω)}

/-! What each call can do. -/

theorem State.send_ok {s t : State τ ω} {item : τ} {taken : Option ω}
    (h : s.send item = (.ok taken, t)) :
    s.closed = false ∧ taken = s.waker ∧ t = { s with items := s.items ++ [item], waker := none } := by
  simp only [State.send] at h
  split at h
  · simp at h
  next hopen =>
    obtain ⟨htaken, rfl⟩ := Prod.mk.inj h
    exact ⟨by simpa using hopen, (Except.ok.inj htaken).symm, rfl⟩

theorem State.send_error {s t : State τ ω} {item back : τ} (h : s.send item = (.error back, t)) :
    s.closed = true ∧ t = s := by
  simp only [State.send] at h
  split at h
  next hclosed => exact ⟨hclosed, (Prod.mk.inj h).2.symm⟩
  next => simp at h

theorem State.dropSender_cases {s t : State τ ω} {taken : Option ω}
    (h : s.dropSender = (taken, t)) :
    (taken = s.waker ∧ t = { s with senders := s.senders - 1, waker := none }) ∨
      (0 < s.senders - 1 ∧ taken = none ∧ t = { s with senders := s.senders - 1 }) := by
  simp only [State.dropSender] at h
  split at h
  next => exact Or.inl ⟨(Prod.mk.inj h).1.symm, (Prod.mk.inj h).2.symm⟩
  next hzero =>
    exact Or.inr ⟨Nat.pos_of_ne_zero hzero, (Prod.mk.inj h).1.symm, (Prod.mk.inj h).2.symm⟩

theorem State.pollRecv_cases {s t : State τ ω} {waker : ω} {poll : Poll τ}
    (h : s.pollRecv k waker = (poll, t)) :
    (∃ item items, s.items = item :: items ∧ poll = .ready (some item) ∧
        t = { s with items := items }) ∨
      (s.items = [] ∧ poll = .ready none ∧ t = s) ∨
      (s.items = [] ∧ s.closed = false ∧ 0 < s.senders ∧ poll = .pending ∧
        ∃ v, k.task v = k.task waker ∧ t = { s with waker := some v }) := by
  simp only [State.pollRecv] at h
  split at h
  next item items hitems =>
    exact Or.inl ⟨item, items, hitems, (Prod.mk.inj h).1.symm, (Prod.mk.inj h).2.symm⟩
  next hitems =>
    split at h
    next => exact Or.inr (Or.inl ⟨hitems, (Prod.mk.inj h).1.symm, (Prod.mk.inj h).2.symm⟩)
    next hopen =>
      rw [not_or] at hopen
      have hclosed : s.closed = false := by simpa using hopen.1
      refine Or.inr (Or.inr ⟨hitems, hclosed, Nat.pos_of_ne_zero hopen.2, ?_⟩)
      split at h
      next hsame =>
        obtain ⟨rfl, rfl⟩ := Prod.mk.inj h
        cases hv : s.waker with
        | none => simp [hv] at hsame
        | some v =>
          have hwill : k.willWake v waker = true := by simpa [hv] using hsame
          exact ⟨rfl, v, k.sound _ _ hwill, by rw [← hv]⟩
      next =>
        obtain ⟨rfl, rfl⟩ := Prod.mk.inj h
        exact ⟨rfl, waker, rfl, rfl⟩

theorem State.tryRecv_cases {s t : State τ ω} {result : Except TryRecvError τ}
    (h : s.tryRecv = (result, t)) :
    (∃ item items, s.items = item :: items ∧ result = .ok item ∧ t = { s with items := items }) ∨
      (s.items = [] ∧ (∃ e, result = .error e) ∧ t = s) := by
  simp only [State.tryRecv] at h
  split at h
  next item items hitems =>
    exact Or.inl ⟨item, items, hitems, (Prod.mk.inj h).1.symm, (Prod.mk.inj h).2.symm⟩
  next hitems =>
    split at h
    all_goals exact Or.inr ⟨hitems, ⟨_, (Prod.mk.inj h).1.symm⟩, (Prod.mk.inj h).2.symm⟩

/-- What the lock protects, between any two steps. -/
structure Sound (s : Sys τ ω) : Prop where
  counted : s.state.senders = s.handles
  stored : s.state.waker.isSome → s.state.items = [] ∧ 0 < s.state.senders ∧ s.receiver = true
  gone : s.receiver = false → s.state.items = [] ∧ s.state.closed = true

theorem sound_new : Sound (Sys.new : Sys τ ω) := by
  constructor <;> simp [Sys.new, State.unboundedChannel]

theorem Sound.pop {item : τ} {items : List τ} (h : Sound s) (hitems : s.state.items = item :: items)
    (hreceiver : s.receiver = true) :
    Sound { s with state := { s.state with items := items } } := by
  refine ⟨h.counted, fun hw => ?_, fun hr => ?_⟩
  · have hempty := (h.stored hw).1
    simp [hitems] at hempty
  · simp [hreceiver] at hr

theorem Step.sound (h : Step k s e t) (hs : Sound s) : Sound t := by
  cases h with
  | sent handle result =>
    obtain ⟨hopen, -, rfl⟩ := State.send_ok result
    refine ⟨hs.counted, by simp, fun hr => ?_⟩
    exact absurd (hs.gone hr).2 (by simp [hopen])
  | refused handle result =>
    obtain ⟨-, rfl⟩ := State.send_error result
    exact hs
  | cloned handle =>
    refine ⟨congrArg (· + 1) hs.counted, fun hw => ?_, hs.gone⟩
    obtain ⟨hempty, -, hreceiver⟩ := hs.stored hw
    exact ⟨hempty, Nat.succ_pos _, hreceiver⟩
  | senderDropped handle result =>
    obtain ⟨-, rfl⟩ | ⟨halive, -, rfl⟩ := State.dropSender_cases result
    · exact ⟨congrArg (· - 1) hs.counted, by simp, hs.gone⟩
    · refine ⟨congrArg (· - 1) hs.counted, fun hw => ?_, hs.gone⟩
      obtain ⟨hempty, -, hreceiver⟩ := hs.stored hw
      exact ⟨hempty, halive, hreceiver⟩
  | woken taken => exact ⟨hs.counted, hs.stored, hs.gone⟩
  | polled receiver result =>
    obtain ⟨item, items, hitems, -, rfl⟩ | ⟨-, -, rfl⟩ | ⟨hempty, -, halive, -, v, -, rfl⟩ :=
      State.pollRecv_cases result
    · exact hs.pop hitems receiver
    · exact hs
    · exact ⟨hs.counted, fun _ => ⟨hempty, halive, receiver⟩, hs.gone⟩
  | tried receiver result =>
    obtain ⟨item, items, hitems, -, rfl⟩ | ⟨-, -, rfl⟩ := State.tryRecv_cases result
    · exact hs.pop hitems receiver
    · exact hs
  | closed receiver => exact ⟨hs.counted, hs.stored, fun hr => ⟨(hs.gone hr).1, rfl⟩⟩
  | cancelled receiver => exact hs
  | receiverDropped receiver result =>
    obtain ⟨-, rfl⟩ := Prod.mk.inj result
    exact ⟨hs.counted, by simp, fun _ => ⟨rfl, rfl⟩⟩

/-- Every step accounts for the items it moves. -/
theorem Step.items (h : Step k s e t) :
    s.state.items ++ e.accepted = e.received ++ (e.dropped ++ t.state.items) := by
  cases h with
  | sent handle result =>
    obtain ⟨-, -, rfl⟩ := State.send_ok result
    simp [Event.accepted, Event.received, Event.dropped]
  | refused handle result =>
    obtain ⟨-, rfl⟩ := State.send_error result
    simp [Event.accepted, Event.received, Event.dropped]
  | senderDropped handle result =>
    obtain ⟨-, rfl⟩ | ⟨-, -, rfl⟩ := State.dropSender_cases result
    all_goals simp [Event.accepted, Event.received, Event.dropped]
  | polled receiver result =>
    obtain ⟨item, items, hitems, rfl, rfl⟩ | ⟨-, rfl, rfl⟩ | ⟨hempty, -, -, rfl, v, -, rfl⟩ :=
      State.pollRecv_cases result
    · simp [hitems, Event.accepted, Event.received, Event.dropped]
    · simp [Event.accepted, Event.received, Event.dropped]
    · simp [hempty, Event.accepted, Event.received, Event.dropped]
  | tried receiver result =>
    obtain ⟨item, items, hitems, rfl, rfl⟩ | ⟨-, ⟨e, rfl⟩, rfl⟩ := State.tryRecv_cases result
    · simp [hitems, Event.accepted, Event.received, Event.dropped]
    · simp [Event.accepted, Event.received, Event.dropped]
  | receiverDropped receiver result =>
    obtain ⟨rfl, rfl⟩ := Prod.mk.inj result
    simp [Event.accepted, Event.received, Event.dropped]
  | cloned handle => simp [State.clone, Event.accepted, Event.received, Event.dropped]
  | closed receiver => simp [State.close, Event.accepted, Event.received, Event.dropped]
  | woken taken => simp [Event.accepted, Event.received, Event.dropped]
  | cancelled receiver => simp [Event.accepted, Event.received, Event.dropped]

theorem Step.gone (h : Step k s e t) (hs : s.receiver = false) :
    e.received = [] ∧ e.dropped = [] ∧ t.receiver = false := by
  cases h with
  | polled receiver result => simp [hs] at receiver
  | tried receiver result => simp [hs] at receiver
  | receiverDropped receiver result => simp [hs] at receiver
  | _ => exact ⟨rfl, rfl, hs⟩

/-- Nothing is received or dropped once the receiver is gone. -/
theorem path_gone (h : Path (Step k) s es t) (hs : s.receiver = false) :
    es.flatMap Event.received = [] ∧ es.flatMap Event.dropped = [] := by
  induction h with
  | nil => exact ⟨rfl, rfl⟩
  | cons hstep _ ih =>
    obtain ⟨hreceived, hdropped, hgone⟩ := hstep.gone hs
    obtain ⟨h1, h2⟩ := ih hgone
    simp [hreceived, hdropped, h1, h2]

theorem Step.dropped_nil_or (h : Step k s e t) : e.dropped = [] ∨ t.receiver = false := by
  cases h with
  | receiverDropped receiver result => exact Or.inr rfl
  | _ => exact Or.inl rfl

/-- What was queued, and accepted since, is received in that order, dropped with the receiver,
or still queued. -/
theorem path_items (h : Path (Step k) s es t) :
    s.state.items ++ es.flatMap Event.accepted =
      es.flatMap Event.received ++ (es.flatMap Event.dropped ++ t.state.items) := by
  induction h with
  | nil => simp
  | @cons s u t e es hstep hpath ih =>
    have hitems := hstep.items
    have hswap : e.dropped ++ es.flatMap Event.received =
        es.flatMap Event.received ++ e.dropped := by
      rcases hstep.dropped_nil_or with hnil | hgone
      · simp [hnil]
      · simp [(path_gone hpath hgone).1]
    calc s.state.items ++ (e :: es).flatMap Event.accepted
        = (s.state.items ++ e.accepted) ++ es.flatMap Event.accepted := by simp
      _ = e.received ++ (e.dropped ++ (u.state.items ++ es.flatMap Event.accepted)) := by
          rw [hitems]; simp
      _ = e.received ++ ((e.dropped ++ es.flatMap Event.received) ++
            (es.flatMap Event.dropped ++ t.state.items)) := by rw [ih]; simp
      _ = _ := by rw [hswap]; simp

theorem Event.offered_perm (es : List (Event τ ω)) :
    (es.flatMap Event.offered).Perm (es.flatMap Event.accepted ++ es.flatMap Event.rejected) := by
  induction es with
  | nil => exact .nil
  | cons e es ih =>
    cases e with
    | sent item taken => exact ih.cons item
    | refused item => exact (ih.cons item).trans List.perm_middle.symm
    | _ => exact ih

/-- Distinct items that were refused are nowhere among those accepted. -/
theorem refused_not_accepted (hn : (es.flatMap Event.offered).Nodup) {x : τ}
    (hx : x ∈ es.flatMap Event.rejected) : x ∉ es.flatMap Event.accepted := by
  have hnodup := (Event.offered_perm es).nodup_iff.mp hn
  intro hmem
  exact (List.disjoint_of_nodup_append hnodup) hmem hx

/-! Waiting for an item. -/

/-- The receiver is registered, and there is nothing it could have been given. -/
structure Armed (k : Waking ω κ) (waker : ω) (s : Sys τ ω) : Prop where
  stored : ∃ v, s.state.waker = some v ∧ k.task v = k.task waker
  empty : s.state.items = []
  alive : 0 < s.state.senders

theorem Step.armed_of_poll {waker : ω} (h : Step k s (.polled waker .pending) t) :
    Armed k waker t ∧ t.state.closed = false := by
  cases h with
  | polled receiver result =>
    obtain ⟨item, items, -, hpoll, -⟩ | ⟨-, hpoll, -⟩ | ⟨hempty, hopen, halive, -, v, htask, rfl⟩ :=
      State.pollRecv_cases result
    · simp at hpoll
    · simp at hpoll
    · exact ⟨⟨⟨v, rfl, htask⟩, hempty, halive⟩, hopen⟩

/-- A waker of the same task has been taken, and its wake is still to come. -/
def Coming (k : Waking ω κ) (waker : ω) (es : List (Event τ ω)) (s : Sys τ ω) : Prop :=
  ∃ v ∈ s.inFlight, k.task v = k.task waker ∧ ∃ e ∈ es, e.takes = some v

/-- A registered receiver stays so, or its waker is taken. -/
theorem Step.armed {waker : ω} (h : Step k s e t) (ha : Armed k waker s) (hpoll : ¬e.IsPoll)
    (hreceiver : t.receiver = true) : Armed k waker t ∨ Coming k waker [e] t := by
  obtain ⟨⟨v, hv, htask⟩, hempty, halive⟩ := ha
  cases h with
  | sent handle result =>
    obtain ⟨-, rfl, rfl⟩ := State.send_ok result
    exact Or.inr ⟨v, by simp [hv], htask, _, List.mem_singleton_self _, hv⟩
  | refused handle result =>
    obtain ⟨-, rfl⟩ := State.send_error result
    exact Or.inl ⟨⟨v, hv, htask⟩, hempty, halive⟩
  | cloned handle => exact Or.inl ⟨⟨v, hv, htask⟩, hempty, Nat.succ_pos _⟩
  | senderDropped handle result =>
    obtain ⟨rfl, rfl⟩ | ⟨halive', -, rfl⟩ := State.dropSender_cases result
    · exact Or.inr ⟨v, by simp [hv], htask, _, List.mem_singleton_self _, hv⟩
    · exact Or.inl ⟨⟨v, hv, htask⟩, hempty, halive'⟩
  | woken taken => exact Or.inl ⟨⟨v, hv, htask⟩, hempty, halive⟩
  | polled receiver result => exact absurd trivial hpoll
  | tried receiver result =>
    obtain ⟨item, items, hitems, -, -⟩ | ⟨-, -, rfl⟩ := State.tryRecv_cases result
    · simp [hempty] at hitems
    · exact Or.inl ⟨⟨v, hv, htask⟩, hempty, halive⟩
  | closed receiver => exact Or.inl ⟨⟨v, hv, htask⟩, hempty, halive⟩
  | cancelled receiver => exact Or.inl ⟨⟨v, hv, htask⟩, hempty, halive⟩
  | receiverDropped receiver result => simp at hreceiver

theorem Step.inFlight {waker v : ω} (h : Step k s e t) (hv : v ∈ s.inFlight)
    (htask : k.task v = k.task waker) (hwakes : ¬e.Wakes k waker) : v ∈ t.inFlight := by
  cases h with
  | sent handle result => exact List.mem_append_right _ hv
  | senderDropped handle result => exact List.mem_append_right _ hv
  | @woken pre post w taken =>
    rw [taken] at hv
    rcases List.mem_append.mp hv with hpre | hpost
    · exact List.mem_append_left _ hpre
    · rcases List.mem_cons.mp hpost with rfl | hpost
      · exact absurd htask hwakes
      · exact List.mem_append_right _ hpost
  | _ => exact hv

theorem path_inFlight {waker v : ω} (h : Path (Step k) s es t) (hv : v ∈ s.inFlight)
    (htask : k.task v = k.task waker) (hwakes : ∀ e ∈ es, ¬e.Wakes k waker) : v ∈ t.inFlight := by
  induction h with
  | nil => exact hv
  | cons hstep _ ih =>
    exact ih (hstep.inFlight hv htask (hwakes _ List.mem_cons_self))
      fun e he => hwakes e (List.mem_cons_of_mem _ he)

theorem path_receiver (h : Path (Step k) s es t) (ht : t.receiver = true) : s.receiver = true := by
  induction h with
  | nil => exact ht
  | cons hstep _ ih =>
    by_contra hs
    have hgone := (hstep.gone (by simpa using hs)).2.2
    simp [ih ht] at hgone

/-- A registered receiver that is not woken misses nothing that is not already on its way. -/
theorem path_armed {waker : ω} (h : Path (Step k) s es t) (ha : Armed k waker s)
    (hpoll : ∀ e ∈ es, ¬e.IsPoll) (hwakes : ∀ e ∈ es, ¬e.Wakes k waker)
    (hreceiver : t.receiver = true) : Armed k waker t ∨ Coming k waker es t := by
  induction h with
  | nil => exact Or.inl ha
  | @cons s u t e es hstep hpath ih =>
    have htail : ∀ e' ∈ es, ¬e'.Wakes k waker := fun e' he => hwakes e' (List.mem_cons_of_mem _ he)
    rcases hstep.armed ha (hpoll _ List.mem_cons_self) (path_receiver hpath hreceiver) with
      harmed | ⟨v, hv, htask, e', he', htakes⟩
    · rcases ih harmed (fun e' he => hpoll e' (List.mem_cons_of_mem _ he)) htail hreceiver with
        harmed | ⟨v, hv, htask, e', he', htakes⟩
      · exact Or.inl harmed
      · exact Or.inr ⟨v, hv, htask, e', List.mem_cons_of_mem _ he', htakes⟩
    · obtain rfl := List.mem_singleton.mp he'
      exact Or.inr ⟨v, path_inFlight hpath hv htask htail, htask, e', List.mem_cons_self, htakes⟩

theorem Step.closed_of (h : Step k s e t) (hs : s.state.closed = false)
    (hreceiver : t.receiver = true) (hclosed : t.state.closed = true) : e = .closed := by
  cases h with
  | sent handle result =>
    obtain ⟨-, -, rfl⟩ := State.send_ok result
    simp [hs] at hclosed
  | refused handle result =>
    obtain ⟨-, rfl⟩ := State.send_error result
    simp [hs] at hclosed
  | senderDropped handle result =>
    obtain ⟨-, rfl⟩ | ⟨-, -, rfl⟩ := State.dropSender_cases result
    all_goals simp [hs] at hclosed
  | polled receiver result =>
    obtain ⟨item, items, -, -, rfl⟩ | ⟨-, -, rfl⟩ | ⟨-, -, -, -, v, -, rfl⟩ :=
      State.pollRecv_cases result
    all_goals simp [hs] at hclosed
  | tried receiver result =>
    obtain ⟨item, items, -, -, rfl⟩ | ⟨-, -, rfl⟩ := State.tryRecv_cases result
    all_goals simp [hs] at hclosed
  | cloned handle => simp [State.clone, hs] at hclosed
  | woken taken => simp [hs] at hclosed
  | closed receiver => rfl
  | cancelled receiver => simp [hs] at hclosed
  | receiverDropped receiver result => simp at hreceiver

/-- A queue whose receiver lives is closed by nothing else. -/
theorem path_closed (h : Path (Step k) s es t) (hs : s.state.closed = false)
    (hreceiver : t.receiver = true) (hclosed : t.state.closed = true) : .closed ∈ es := by
  induction h with
  | nil => simp [hs] at hclosed
  | @cons s u t e es hstep hpath ih =>
    by_cases hu : u.state.closed = true
    · rw [hstep.closed_of hs (path_receiver hpath hreceiver) hu]
      exact List.mem_cons_self
    · exact List.mem_cons_of_mem _ (ih (by simpa using hu) hreceiver hclosed)

/-- The receiver's last poll came back empty-handed, and its task has not been woken since. -/
structure Waiting (k : Waking ω κ) (waker : ω) (es since : List (Event τ ω)) (s : Sys τ ω) : Prop where
  polled : ∃ before, es = before ++ .polled waker .pending :: since
  last : ∀ e ∈ since, ¬e.IsPoll
  asleep : ∀ e ∈ since, ¬e.Wakes k waker
  receiver : s.receiver = true

/-- No item and no wakeup is lost in a run. -/
structure Lossless (k : Waking ω κ) (es : List (Event τ ω)) (s : Sys τ ω) : Prop where
  ordered : es.flatMap Event.accepted =
    es.flatMap Event.received ++ (es.flatMap Event.dropped ++ s.state.items)
  taken : s.receiver = false → s.state.items = []
  refused : (es.flatMap Event.offered).Nodup → ∀ x ∈ es.flatMap Event.rejected,
    x ∉ es.flatMap Event.received
  waiting : ∀ waker since, Waiting k waker es since s →
    (s.state.items = [] ∧ 0 < s.state.senders ∧ (s.state.closed = true → .closed ∈ since)) ∨
      Coming k waker since s
  stored : s.state.waker.isSome → s.state.items = [] ∧ 0 < s.state.senders

theorem Waiting.armed_or_coming {waker : ω} {since : List (Event τ ω)}
    (h : Path (Step k) s es t) (hw : Waiting k waker es since t) :
    (t.state.items = [] ∧ 0 < t.state.senders ∧ (t.state.closed = true → .closed ∈ since)) ∨
      Coming k waker since t := by
  obtain ⟨before, rfl⟩ := hw.polled
  obtain ⟨u, -, hafter⟩ := h.of_append
  obtain ⟨v, hpoll, hsince⟩ := Path.cons_iff.mp hafter
  obtain ⟨harmed, hopen⟩ := hpoll.armed_of_poll
  rcases path_armed hsince harmed hw.last hw.asleep hw.receiver with harmed | hcoming
  · exact Or.inl ⟨harmed.empty, harmed.alive, path_closed hsince hopen hw.receiver⟩
  · exact Or.inr hcoming

theorem queue_lossless (h : Path (Step k) Sys.new es s) : Lossless k es s := by
  have hsound : Sound s := h.invariant (fun _ _ _ hs hstep => hstep.sound hs) sound_new
  have hitems := path_items h
  rw [Sys.new, State.unboundedChannel, List.nil_append] at hitems
  refine ⟨hitems, fun hgone => (hsound.gone hgone).1, fun hn x hx hreceived => ?_,
    fun waker since hw => hw.armed_or_coming h, fun hw => ?_⟩
  · apply refused_not_accepted hn hx
    rw [hitems]
    exact List.mem_append_left _ hreceived
  · exact ⟨(hsound.stored hw).1, (hsound.stored hw).2.1⟩

/-- Wakers told apart by the task they wake. -/
def taskWaking : Waking Nat Nat where
  task := id
  willWake := fun a b => a == b
  sound := fun _ _ h => eq_of_beq h

def polledSys : Sys Nat Nat := ⟨⟨[], some 7, 1, false⟩, 1, true, []⟩

def sentSys : Sys Nat Nat := ⟨⟨[1], none, 1, false⟩, 1, true, [7]⟩

theorem step_polled : Step taskWaking Sys.new (.polled 7 .pending) polledSys := .polled rfl rfl

theorem step_sent : Step taskWaking polledSys (.sent 1 (some 7)) sentSys := .sent (by decide) rfl

theorem queue_lossless_woken :
    Path (Step taskWaking) Sys.new [.polled 7 .pending, .sent 1 (some 7)] sentSys ∧
      Lossless taskWaking [.polled 7 .pending, .sent 1 (some 7)] sentSys :=
  have hpath : Path (Step taskWaking) Sys.new [.polled 7 .pending, .sent 1 (some 7)] sentSys :=
    .cons step_polled (.cons step_sent .nil)
  ⟨hpath, queue_lossless hpath⟩

/-- A receiver that closes the queue it waited for is not woken, and one that is about to be
woken already has an item. -/
theorem waiting_on_closed_or_full :
    (¬∀ (es since : List (Event Nat Nat)) (s : Sys Nat Nat), Path (Step taskWaking) Sys.new es s →
      Waiting taskWaking 7 es since s → s.state.closed = false) ∧
    ¬∀ (es since : List (Event Nat Nat)) (s : Sys Nat Nat), Path (Step taskWaking) Sys.new es s →
      Waiting taskWaking 7 es since s → s.state.items = [] := by
  constructor
  · intro h
    have hpath := Path.cons step_polled (.cons (.closed rfl) .nil)
    have hopen := h _ [.closed] _ hpath ⟨⟨[], rfl⟩, by simp [Event.IsPoll], by simp [Event.Wakes], rfl⟩
    simp [State.close] at hopen
  · intro h
    have hpath := Path.cons step_polled (.cons step_sent .nil)
    have hempty := h _ [.sent 1 (some 7)] _ hpath
      ⟨⟨[], rfl⟩, by simp [Event.IsPoll], by simp [Event.Wakes], rfl⟩
    simp [sentSys] at hempty

end Grammers.Queue
