import Grammers.LabelledPath
import Grammers.ReceivedBatches

namespace Grammers

open LabelledPath
open Rpc (InvocationError)
open UpdatesReceiver (Phase Action StorageError Call)

/-- The peers of a batch: its users, and its groups and channels. -/
inductive BatchPeer where
  | user (user : User)
  | chat (chat : Chat)
  deriving DecidableEq

abbrev PeerMap : Type := PeerId → Option BatchPeer

/-- An update as it is returned, with its state and the peers of its batch. -/
abbrev RawUpdate : Type := Update × State × PeerMap

structure UpdateStream where
  updates : UpdatesReceiver
  buffer : List RawUpdate
  pendingPeerCache : Option PeerMap

namespace UpdateStream

def create (messageBox : MessageBoxes) (now : Instant) : UpdateStream where
  updates := .create messageBox now
  buffer := []
  pendingPeerCache := none

section

-- whether a chat is a group or a channel is not kept of it
variable (chatId : Chat → PeerId)

def BatchPeer.id : BatchPeer → PeerId
  | .user user => .userUnchecked user.id
  | .chat chat => chatId chat

/-- Of the peers with one identifier, the last one. -/
def peerMapFromRaw (users : List User) (chats : List Chat) : PeerMap :=
  (users.map BatchPeer.user ++ chats.map BatchPeer.chat).foldl
    (fun map peer => Function.update map (BatchPeer.id chatId peer) (some peer)) fun _ => none

/-- The updates of a batch with its peers. -/
def rawUpdates (batch : UpdateAndPeers) : List RawUpdate :=
  batch.updates.map fun (update, state) =>
    (update, state, peerMapFromRaw chatId batch.users batch.chats)

end

/-- Where `next_raw` is: not called, storing peers, or waiting for the next batch. -/
inductive Point where
  | outside
  | caching
  | receiving (phase : Phase)

/-- What `next_raw` is resumed with. Storing the peers may fail, which is logged. -/
inductive StreamAction where
  | call
  | cached (answer : Except StorageError Unit)
  | receiver (action : Action)
  | cancel

abbrev Returned : Type := Except InvocationError RawUpdate

abbrev Resumed : Type := UpdateStream × Point × Option Returned

def pop (s : UpdateStream) : Resumed :=
  match s.buffer with
  | update :: rest => ({ s with buffer := rest }, .outside, some (.ok update))
  | [] => (s, .receiving .idle, none)

/-- The start of the loop. -/
def turn (s : UpdateStream) : Resumed :=
  if s.pendingPeerCache.isSome then (s, .caching, none) else s.pop

/-- The whole batch is kept before its peers are stored. -/
def retain (chatId : Chat → PeerId) (s : UpdateStream) (batch : UpdateAndPeers) : UpdateStream :=
  { s with
    buffer := s.buffer ++ rawUpdates chatId batch
    pendingPeerCache := some (peerMapFromRaw chatId batch.users batch.chats) }

variable (provesLogin : UpdatesLike → Bool) (chatId : Chat → PeerId)

/-- What `next` of the receiver has come to. -/
def received (s : UpdateStream) : UpdatesReceiver.Resumed → Resumed
  | (updates, phase, none) => ({ s with updates := updates }, .receiving phase, none)
  | (updates, _, some (.error error)) => ({ s with updates := updates }, .outside, some (.error error))
  | (updates, _, some (.ok batch)) => ({ s with updates := updates }.retain chatId batch).turn

/-- `next_raw`, resumed where it is. To be dropped leaves everything as it is. -/
def resume (s : UpdateStream) (now : Instant) : Point → StreamAction → Option Resumed
  | .outside, .call => some s.turn
  | .caching, .cached _ => some { s with pendingPeerCache := none }.pop
  | .receiving _, .receiver .cancel => none
  | .receiving phase, .receiver action =>
    (s.updates.resume provesLogin now phase action).map (s.received chatId)
  | .caching, .cancel => some (s, .outside, none)
  | .receiving _, .cancel => some (s, .outside, none)
  | _, _ => none

/-- The calls of the message box where `next_raw` is resumed. -/
def callsOf (s : UpdateStream) (now : Instant) : Point → StreamAction → List Call
  | .receiving phase, .receiver action => s.updates.callsOf provesLogin now phase action
  | _, _ => []

def StreamAction.taken : StreamAction → Option UpdatesLike
  | .receiver action => action.taken
  | _ => none

/-- A stream with where its `next_raw` is. -/
structure Running where
  stream : UpdateStream
  point : Point

structure Event where
  now : Instant
  action : StreamAction
  returned : Option Returned
  calls : List Call

structure Step (s : Running) (e : Event) (t : Running) : Prop where
  resumed : s.stream.resume provesLogin chatId e.now s.point e.action =
    some (t.stream, t.point, e.returned)
  calls : e.calls = s.stream.callsOf provesLogin e.now s.point e.action

def Running.init (messageBox : MessageBoxes) (now : Instant) : Running :=
  ⟨create messageBox now, .outside⟩

/-- The actions at their instants, as far as `next_raw` can be resumed with them. -/
def Running.run (s : Running) : List (Instant × StreamAction) → Option (List Event × Running)
  | [] => some ([], s)
  | (now, action) :: actions => do
    let (stream, point, returned) ← s.stream.resume provesLogin chatId now s.point action
    let (events, t) ← Running.run ⟨stream, point⟩ actions
    some (⟨now, action, returned, s.stream.callsOf provesLogin now s.point action⟩ :: events, t)

def returnedOf : Option Returned → List RawUpdate
  | some (.ok update) => [update]
  | _ => []

/-- The updates of all the batches that calls produce. -/
def producedOf (calls : List Call) : List RawUpdate :=
  (calls.filterMap Call.produced).flatMap (rawUpdates chatId)

/-- The updates that are still held, those of the stream first. -/
def held (s : UpdateStream) : List RawUpdate :=
  s.buffer ++ s.updates.buffer.flatMap (rawUpdates chatId)

variable {provesLogin chatId} {s : UpdateStream} {resumed : Resumed} {now : Instant} {point : Point}
  {action : StreamAction}

theorem path_of_run {s t : Running} {actions : List (Instant × StreamAction)} {events : List Event}
    (h : s.run provesLogin chatId actions = some (events, t)) :
    Path (Step provesLogin chatId) s events t := by
  induction actions generalizing s events with
  | nil =>
    cases h
    exact Path.nil
  | cons timed actions ih =>
    obtain ⟨⟨stream, point, returned⟩, hresume, h⟩ := Option.bind_eq_some_iff.mp h
    obtain ⟨⟨rest, u⟩, hrest, h⟩ := Option.bind_eq_some_iff.mp h
    cases h
    exact Path.cons ⟨hresume, rfl⟩ (ih hrest)

theorem flatMap_queuedOf (calls : List Call) :
    (UpdatesReceiver.queuedOf calls).flatMap (rawUpdates chatId) = producedOf chatId calls := by
  unfold UpdatesReceiver.queuedOf producedOf
  induction calls.filterMap Call.produced with
  | nil => rfl
  | cons batch batches ih =>
    cases hqueued : batch.isQueued with
    | true =>
      rw [List.filter_cons_of_pos hqueued, List.flatMap_cons, List.flatMap_cons, ih]
    | false =>
      have hnil : rawUpdates chatId batch = [] := by
        have hnot := of_decide_eq_false hqueued
        rw [not_or, not_not] at hnot
        rw [rawUpdates, hnot.1, List.map_nil]
      rw [List.filter_cons_of_neg (by rw [hqueued]; exact Bool.false_ne_true), List.flatMap_cons,
        hnil, List.nil_append, ih]

theorem pop_held (s : UpdateStream) :
    returnedOf s.pop.2.2 ++ held chatId s.pop.1 = held chatId s := by
  unfold pop
  split
  next update rest hbuffer =>
    rw [held, held, hbuffer]
    rfl
  next hbuffer => rfl

theorem turn_held (s : UpdateStream) :
    returnedOf s.turn.2.2 ++ held chatId s.turn.1 = held chatId s := by
  unfold turn
  split
  next => rfl
  next => exact pop_held s

theorem received_held {resumed : UpdatesReceiver.Resumed} {calls : List Call}
    (h : UpdatesReceiver.batchOf resumed.2.2 ++ resumed.1.buffer =
      s.updates.buffer ++ UpdatesReceiver.queuedOf calls) :
    returnedOf (s.received chatId resumed).2.2 ++ held chatId (s.received chatId resumed).1 =
      held chatId s ++ producedOf chatId calls := by
  have hheld := congrArg (List.flatMap (rawUpdates chatId)) h
  rw [List.flatMap_append, List.flatMap_append, flatMap_queuedOf] at hheld
  have hright : held chatId s ++ producedOf chatId calls =
      s.buffer ++ ((UpdatesReceiver.batchOf resumed.2.2).flatMap (rawUpdates chatId) ++
        resumed.1.buffer.flatMap (rawUpdates chatId)) := by
    rw [held, List.append_assoc, hheld]
  rw [hright]
  obtain ⟨updates, phase, returned⟩ := resumed
  cases returned with
  | none => rfl
  | some answer =>
    cases answer with
    | error error => rfl
    | ok batch =>
      refine (turn_held _).trans ?_
      simp [held, retain, UpdatesReceiver.batchOf]

theorem resume_held (h : s.resume provesLogin chatId now point action = some resumed) :
    returnedOf resumed.2.2 ++ held chatId resumed.1 =
      held chatId s ++ producedOf chatId (s.callsOf provesLogin now point action) := by
  cases point with
  | outside =>
    cases action with
    | call =>
      cases h
      exact (turn_held s).trans (List.append_nil _).symm
    | _ => cases h
  | caching =>
    cases action with
    | cached answer =>
      cases h
      exact (pop_held _).trans (List.append_nil _).symm
    | cancel =>
      cases h
      exact (List.append_nil _).symm
    | _ => cases h
  | receiving phase =>
    cases action with
    | receiver a =>
      have hrun : (s.updates.resume provesLogin now phase a).map (s.received chatId) =
          some resumed := by
        cases a with
        | cancel => cases h
        | _ => exact h
      obtain ⟨received, hreceived, rfl⟩ := Option.map_eq_some_iff.mp hrun
      exact received_held (UpdatesReceiver.resume_buffer hreceived)
    | cancel =>
      cases h
      exact (List.append_nil _).symm
    | _ => cases h

theorem resume_payloads (h : s.resume provesLogin chatId now point action = some resumed) :
    (s.callsOf provesLogin now point action).filterMap Call.payload = action.taken.toList := by
  cases action with
  | receiver a =>
    cases point with
    | receiving phase =>
      have hrun : (s.updates.resume provesLogin now phase a).map (s.received chatId) =
          some resumed := by
        cases a with
        | cancel => cases h
        | _ => exact h
      obtain ⟨received, hreceived, -⟩ := Option.map_eq_some_iff.mp hrun
      exact UpdatesReceiver.resume_payloads hreceived
    | _ => cases h
  | _ => cases point <;> rfl

/-- Over any run, with calls that are dropped at any point: what is returned is a prefix of what the
message box has produced, each update with the peers of its batch; the rest is still held, in order;
and each payload that was taken out of the channel was processed once. -/
theorem updates_delivered (provesLogin : UpdatesLike → Bool) (chatId : Chat → PeerId)
    (messageBox : MessageBoxes) (start : Instant) {events : List Event} {s : Running}
    (run : Path (Step provesLogin chatId) (Running.init messageBox start) events s) :
    (events.flatMap fun e => returnedOf e.returned) <+:
      producedOf chatId (events.flatMap Event.calls) ∧
    (events.flatMap fun e => returnedOf e.returned) ++
        (s.stream.buffer ++ s.stream.updates.buffer.flatMap (rawUpdates chatId)) =
      producedOf chatId (events.flatMap Event.calls) ∧
    (events.flatMap Event.calls).filterMap Call.payload =
      events.filterMap fun e => e.action.taken := by
  obtain ⟨hheld, hpayloads⟩ := run.invariant_labels
    (I := fun events s => (events.flatMap fun e => returnedOf e.returned) ++ held chatId s.stream =
        producedOf chatId (events.flatMap Event.calls) ∧
      (events.flatMap Event.calls).filterMap Call.payload = events.filterMap fun e => e.action.taken)
    (by
      rintro events s e t ⟨hheld, hpayloads⟩ ⟨hresumed, hcalls⟩
      have hstep := resume_held hresumed
      have htaken := resume_payloads hresumed
      rw [← hcalls] at hstep htaken
      refine ⟨?_, ?_⟩
      · simp only [List.flatMap_append, List.flatMap_cons, List.flatMap_nil, List.append_nil,
          List.append_assoc]
        rw [hstep, ← List.append_assoc, hheld, producedOf, producedOf, producedOf,
          List.filterMap_append, List.flatMap_append]
      · simp only [List.flatMap_append, List.flatMap_cons, List.flatMap_nil, List.append_nil,
          List.filterMap_append, hpayloads, htaken]
        cases htaken' : e.action.taken <;> simp [htaken'])
    ⟨rfl, rfl⟩
  exact ⟨⟨_, hheld⟩, hheld, hpayloads⟩

def samplePayload : UpdatesLike :=
  .updates (.updates [.deleteMessages [101] 101 1, .deleteMessages [102] 102 1] [] [⟨73⟩] 1 1)

def sampleActions : List (Instant × StreamAction) :=
  [(0, .call), (0, .receiver (.start 0)), (0, .receiver (.live (some samplePayload))), (0, .cancel),
    (1, .call), (1, .cached (.ok ()))]

theorem sample_delivery : ∃ events s,
    Path (Step (fun _ => true) fun chat => .channelUnchecked chat.id) (Running.init (.new 0) 0)
      events s ∧
    (events.filterMap fun e => e.action.taken) = [samplePayload] ∧
    (events.flatMap fun e => returnedOf e.returned).map Prod.fst = [.deleteMessages [101] 101 1] ∧
    s.stream.buffer.map Prod.fst = [.deleteMessages [102] 102 1] ∧
    (events.flatMap Event.calls).filterMap Call.payload = [samplePayload] := by
  obtain ⟨events, s, hrun, htaken, hreturned, hbuffer⟩ : ∃ events s,
      (Running.init (.new 0) 0).run (fun _ => true) (fun chat => .channelUnchecked chat.id)
        sampleActions = some (events, s) ∧
      (events.filterMap fun e => e.action.taken) = [samplePayload] ∧
      (events.flatMap fun e => returnedOf e.returned).map Prod.fst =
        [.deleteMessages [101] 101 1] ∧
      s.stream.buffer.map Prod.fst = [.deleteMessages [102] 102 1] := ⟨_, _, rfl, rfl, rfl, rfl⟩
  have run := path_of_run hrun
  obtain ⟨-, -, hpayloads⟩ := updates_delivered _ _ _ _ run
  exact ⟨events, s, run, htaken, hreturned, hbuffer, hpayloads.trans htaken⟩

end UpdateStream

end Grammers
