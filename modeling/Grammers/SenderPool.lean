import Grammers.LabelledPath
import Grammers.PoolConnection
import Grammers.RouteCache

namespace Grammers.SenderPool

open Census LabelledPath SwapRemove

/-- How far a call is in `try_route` and the sends after it. -/
inductive Call where
  | opened (dcId : Int32) (rpc : Rpc)
  | routed (dcId : Int32) (rpc : Rpc) (tx : Nat)
  | unrouted (dcId : Int32) (rpc : Rpc)
  deriving DecidableEq

inductive Request where
  | invoke (dcId : Int32) (rpc : Rpc)
  | disconnect (dcId : Int32)
  | quit
  deriving DecidableEq

structure PendingConnection where
  dcId : Int32
  requests : List Rpc
  setup : Nat
  deriving DecidableEq

/-- How a setup task ends. -/
inductive Outcome where
  | connected
  | failed
  | cancelled
  | panicked
  deriving DecidableEq

structure Setup where
  dcId : Int32
  outcome : Option Outcome
  aborted : Bool
  joined : Bool
  deriving DecidableEq

structure ConnectionInfo where
  dcId : Int32
  tx : Nat
  deriving DecidableEq

/-- What is done, in this order, once the runner has left its loop. -/
inductive Cleanup where
  | closeRoutes
  | closeQueue
  | drainQueue
  | clearConnections
  | clearPending
  | abortSetups
  | joinSetups
  | abortConnections
  | joinConnections
  deriving DecidableEq

open Cleanup in
/-- After `drive` has returned or panicked; connections are aborted if it failed. -/
def shutdown : List Cleanup :=
  [closeRoutes, closeQueue, drainQueue, clearConnections, clearPending, abortSetups, joinSetups,
    abortConnections, joinConnections]

open Cleanup in
/-- When the future is dropped: the runner closes the routes, then its fields are dropped. -/
def dropped : List Cleanup :=
  [closeRoutes, clearPending, abortSetups, closeQueue, drainQueue, clearConnections,
    abortConnections]

inductive Runner where
  | waiting
  | received (dcId : Int32) (rpc : Rpc)
  | sending (dcId : Int32) (rpc : Rpc) (tx : Nat)
  | stopping (failed : Bool) (todo : List Cleanup)
  deriving DecidableEq

/-- A pool: its handles in the middle of calls, what they share with the runner, the runner, and the
tasks it has spawned. `gone` are the calls whose response nobody waits for; `resolved` are those whose
response has been sent or dropped. -/
structure State where
  handles : Bool
  calls : List Call
  departing : List Int32
  quitting : Nat
  routes : RouteCache
  queue : List Request
  queueClosed : Bool
  runner : Runner
  pending : List PendingConnection
  connections : List ConnectionInfo
  setups : List Setup
  tasks : List Connection
  gone : List Rpc
  issued : List Rpc
  resolved : List Rpc
  deriving DecidableEq

inductive Action where
  | invoke (rpc : Rpc)
  | lookup (i : Nat)
  | send (i : Nat)
  | disconnect (dcId : Int32)
  | sendDisconnect (i : Nat)
  | quit
  | sendQuit
  | activate
  | leave (rpc : Rpc)
  | dropHandles
  | setup (i : Nat) (outcome : Outcome)
  | task (i : Nat) (a : TaskAction)
  | receive
  | route
  | deliver
  | joinSetup (i : Nat)
  | joinTask (i : Nat)
  | poll (i : Nat) (closed : List Rpc)
  | crash
  | dropRunner
  | cleanup
  deriving DecidableEq

def Call.rpcs : Call → List Rpc
  | .opened _ rpc | .routed _ rpc _ | .unrouted _ rpc => [rpc]

def Request.rpcs : Request → List Rpc
  | .invoke _ rpc => [rpc]
  | .disconnect _ | .quit => []

def Runner.rpcs : Runner → List Rpc
  | .received _ rpc | .sending _ rpc _ => [rpc]
  | .waiting | .stopping _ _ => []

def Setup.abort (u : Setup) : Setup := { u with aborted := true }

def PendingConnection.push (p : PendingConnection) (rpc : Rpc) : PendingConnection :=
  { p with requests := p.requests ++ [rpc] }

namespace State

def init (parked : Bool) : State where
  handles := true
  calls := []
  departing := []
  quitting := 0
  routes := .init parked
  queue := []
  queueClosed := false
  runner := .waiting
  pending := []
  connections := []
  setups := []
  tasks := []
  gone := []
  issued := []
  resolved := []

def resolve (s : State) (rpcs : List Rpc) : State := { s with resolved := s.resolved ++ rpcs }

def stop (s : State) (failed : Bool) : State := { s with runner := .stopping failed shutdown }

/-- Some sender of the queue of a connection is left. -/
def reachable (s : State) (tx : Nat) : Bool :=
  s.routes.entries.any (fun e => e.2 = tx) || s.connections.any (fun k => k.tx = tx) ||
    s.calls.any fun
      | .routed _ _ t => t = tx
      | _ => false

def isClosed (s : State) (tx : Nat) : Bool := s.tasks[tx]?.all Connection.closed

def isFinished (s : State) (tx : Nat) : Bool := s.tasks[tx]?.all Connection.isFinished

/-- `send` on the queue of a connection, unless it gives the call back. -/
def enqueue (s : State) (tx : Nat) (rpc : Rpc) : Option State :=
  match s.tasks[tx]? with
  | some c => if c.closed then none else some { s with tasks := s.tasks.set tx (c.push rpc) }
  | none => none

/-- `send` on the queue of the pool. -/
def request (s : State) (q : Request) : State :=
  if s.queueClosed then s.resolve q.rpcs else { s with queue := s.queue ++ [q] }

def startSetup (s : State) (dcId : Int32) (rpc : Rpc) : State :=
  match position (fun p => p.dcId = dcId) s.pending with
  | some (i, p) => { s with pending := s.pending.set i (p.push rpc) }
  | none => { s with
      setups := s.setups ++ [⟨dcId, none, false, false⟩]
      pending := s.pending ++ [⟨dcId, [rpc], s.setups.length⟩] }

def cancelSetup (s : State) (dcId : Int32) : State :=
  match position (fun p => p.dcId = dcId) s.pending with
  | some (i, p) => resolve { s with
      pending := swapRemove s.pending i
      setups := s.setups.modify p.setup Setup.abort } p.requests
  | none => s

def connected (s : State) (dcId : Int32) (requests : List Rpc) : State :=
  resolve { s with
    tasks := s.tasks ++ [⟨dcId, requests.filter (· ∉ s.gone), [], .running, false, false⟩]
    routes := s.routes.publish dcId s.tasks.length
    connections := s.connections ++ [⟨dcId, s.tasks.length⟩] } (requests.filter (· ∈ s.gone))

/-- The result of a setup is for the group that waits for this very task. -/
def finishSetup (s : State) (dcId : Int32) (setup : Nat) (ok : Bool) : State :=
  match position (fun p => p.dcId = dcId && p.setup = setup) s.pending with
  | some (i, p) =>
    let s := { s with pending := swapRemove s.pending i }
    if ok then s.connected dcId p.requests else s.resolve p.requests
  | none => s

def recordCompletion (s : State) : State := { s with
  connections := s.connections.filter fun k => !s.isFinished k.tx
  routes := { s.routes with entries := s.routes.entries.filter fun e => !s.isClosed e.2 } }

def processDisconnect (s : State) (dcId : Int32) : State :=
  let s := s.cancelSetup dcId
  { s with
    routes := s.routes.finishDisconnect dcId
    tasks := s.tasks.mapIdx fun i c =>
      if s.connections.any fun k => k.dcId = dcId && k.tx = i then c.abort else c
    connections := s.connections.filter fun k => k.dcId ≠ dcId }

/-- The runner takes a request from its queue; it ends when no handle is left. -/
def receive (s : State) : Option State :=
  match s.queue with
  | .invoke dcId rpc :: queue =>
    if rpc ∈ s.gone then some (resolve { s with queue := queue } [rpc])
    else some { s with queue := queue, runner := .received dcId rpc }
  | .disconnect dcId :: queue => some (processDisconnect { s with queue := queue } dcId)
  | .quit :: queue => some (stop { s with queue := queue } false)
  | [] => if s.handles then none else some (s.stop false)

/-- What the runner does with the end of a setup. -/
def setupJoined (s : State) (i : Nat) (u : Setup) : Outcome → State
  | .connected => s.finishSetup u.dcId i true
  | .failed => s.finishSetup u.dcId i false
  | .cancelled => s
  | .panicked => s.stop true

def cleanup (s : State) (failed : Bool) : Cleanup → State
  | .closeRoutes => { s with routes := s.routes.close }
  | .closeQueue => { s with queueClosed := true }
  | .drainQueue => resolve { s with queue := [] } (s.queue.flatMap Request.rpcs)
  | .clearConnections => { s with connections := [] }
  | .clearPending => resolve { s with pending := [] } (s.pending.flatMap (·.requests))
  | .abortSetups => { s with setups := s.setups.map Setup.abort }
  | .joinSetups => s
  | .abortConnections => if failed then { s with tasks := s.tasks.map Connection.abort } else s
  | .joinConnections => s

/-- A step of the end waits for the tasks it joins. -/
def ready (s : State) : Cleanup → Bool
  | .joinSetups => s.setups.all (·.joined)
  | .joinConnections => s.tasks.all (·.joined)
  | _ => true

end State

open State

/-- A step of a handle, a task or the runner; `target` is the datacenter that a call is made for. -/
def step (target : Rpc → Int32) (s : State) : Action → Option State
  | .invoke rpc =>
    if s.handles ∧ s.queueClosed = false ∧ rpc ∉ s.issued then
      some { s with issued := s.issued ++ [rpc], calls := s.calls ++ [.opened (target rpc) rpc] }
    else none
  | .lookup i =>
    match s.calls[i]? with
    | some (.opened dcId rpc) =>
      if s.routes.stopping || s.routes.parked then
        some (resolve { s with calls := s.calls.eraseIdx i } [rpc])
      else
        match s.routes.find dcId with
        | some tx => some { s with calls := s.calls.set i (.routed dcId rpc tx) }
        | none => some { s with calls := s.calls.set i (.unrouted dcId rpc) }
    | _ => none
  | .send i =>
    match s.calls[i]? with
    | some (.routed dcId rpc tx) =>
      match s.enqueue tx rpc with
      | some t => some { t with calls := s.calls.eraseIdx i }
      | none => some { s with calls := s.calls.set i (.unrouted dcId rpc) }
    | some (.unrouted dcId rpc) =>
      some (request { s with calls := s.calls.eraseIdx i } (.invoke dcId rpc))
    | _ => none
  | .disconnect dcId =>
    if s.handles then
      some { s with routes := s.routes.beginDisconnect dcId, departing := s.departing ++ [dcId] }
    else none
  | .sendDisconnect i =>
    match s.departing[i]? with
    | some dcId => some (request { s with departing := s.departing.eraseIdx i } (.disconnect dcId))
    | none => none
  | .quit =>
    if s.handles then some { s with routes := s.routes.close, quitting := s.quitting + 1 } else none
  | .sendQuit =>
    if s.quitting = 0 then none else some (request { s with quitting := s.quitting - 1 } .quit)
  | .activate =>
    if s.handles ∧ s.routes.stopping = false ∧ s.queueClosed = false then
      some { s with routes := { s.routes with parked := false } }
    else none
  | .leave rpc => if rpc ∈ s.issued then some { s with gone := s.gone ++ [rpc] } else none
  | .dropHandles =>
    if s.calls = [] ∧ s.departing = [] ∧ s.quitting = 0 then some { s with handles := false }
    else none
  | .setup i outcome =>
    match s.setups[i]? with
    | some u =>
      if u.outcome = none ∧ (outcome = .cancelled → u.aborted = true) then
        some { s with setups := s.setups.set i { u with outcome := some outcome } }
      else none
    | none => none
  | .task i a =>
    match s.tasks[i]? with
    | some c =>
      match c.step (s.reachable i) a with
      | some (c, out) => some (resolve { s with tasks := s.tasks.set i c } out)
      | none => none
    | none => none
  | .receive => if s.runner = .waiting then s.receive else none
  | .route =>
    match s.runner with
    | .received dcId rpc =>
      match s.connections.find? fun k => k.dcId = dcId && !s.isClosed k.tx with
      | some k => some { s with runner := .sending dcId rpc k.tx }
      | none => some (startSetup { s with runner := .waiting } dcId rpc)
    | _ => none
  | .deliver =>
    match s.runner with
    | .sending dcId rpc tx =>
      match s.enqueue tx rpc with
      | some t => some { t with runner := .waiting }
      | none => some (startSetup { s with runner := .waiting } dcId rpc)
    | _ => none
  | .joinSetup i =>
    match s.setups[i]? with
    | some ⟨dcId, some outcome, aborted, false⟩ =>
      let u : Setup := ⟨dcId, some outcome, aborted, true⟩
      let t := { s with setups := s.setups.set i u }
      match s.runner with
      | .waiting => some (t.setupJoined i u outcome)
      | .stopping failed (.joinSetups :: todo) =>
        some { t with runner := .stopping (failed || outcome = .panicked) (.joinSetups :: todo) }
      | _ => none
    | _ => none
  | .joinTask i =>
    match s.tasks[i]? with
    | some c =>
      match c.task, c.joined with
      | .finished panicked, false =>
        let t := recordCompletion { s with tasks := s.tasks.set i { c with joined := true } }
        match s.runner with
        | .waiting => some (if panicked then t.stop true else t)
        | .stopping failed (.joinConnections :: todo) =>
          some { t with runner := .stopping (failed || panicked) (.joinConnections :: todo) }
        | _ => none
      | _, _ => none
    | none => none
  | .poll i closed =>
    match s.pending[i]? with
    | some p =>
      if s.runner = .waiting ∧ ∀ rpc ∈ closed, rpc ∈ s.gone then
        let kept := p.requests.filter (· ∉ closed)
        let t := resolve { s with pending := s.pending.set i { p with requests := kept } }
          (p.requests.filter (· ∈ closed))
        some (if kept = [] then t.cancelSetup p.dcId else t)
      else none
    | none => none
  | .crash => if s.runner = .waiting then some (s.stop true) else none
  | .dropRunner =>
    match s.runner with
    | .waiting | .stopping _ (.joinSetups :: _) | .stopping _ (.joinConnections :: _) =>
      some { s with runner := .stopping true dropped }
    | _ => none
  | .cleanup =>
    match s.runner with
    | .stopping failed (c :: todo) =>
      if s.ready c then some { s.cleanup failed c with runner := .stopping failed todo } else none
    | _ => none

def Step (target : Rpc → Int32) (s : State) (a : Action) (t : State) : Prop :=
  step target s a = some t

end Grammers.SenderPool
