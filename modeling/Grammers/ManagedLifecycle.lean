import Mathlib.Logic.Function.Basic
import Grammers.LabelledPath

namespace Grammers

inductive InvocationErrorCategory where
  | overloaded
  | closed
  | network
  | protocol
  | session
  | authentication
  | permission
  | invalidRequest
  | server
  | uncertainDelivery
  | floodWait
  | rpc
  deriving DecidableEq

inductive LifecycleError (ε : Type) where
  | missingRuntime
  | alreadyStopped
  | runnerPanicked
  | runnerCancelled
  | shutdownTimeout
  | connectivity (error : ε)
  deriving DecidableEq

abbrev Completion (ε : Type) : Type := Except (LifecycleError ε) Unit

inductive CompletionRecord (ε : Type) where
  | closedRequest (error : LifecycleError ε)
  | final (result : Completion ε)

namespace Managed

variable {ε : Type}

/-- The first half of `publish_completion`, under the lock of the watch channel. -/
def publish (current : Option (CompletionRecord ε)) (result : Completion ε) :
    Option (CompletionRecord ε) :=
  match current with
  | some (.final resolved) => some (.final resolved)
  | some (.closedRequest error) =>
    match result with
    | .ok () => some (.final (.error error))
    | .error e => some (.final (.error e))
  | none => some (.final result)

/-- The second half: what is read back. -/
def borrow (current : Option (CompletionRecord ε)) (result : Completion ε) : Completion ε :=
  match current with
  | some (.final resolved) => resolved
  | _ => result

inductive JoinError where
  | panicked
  | cancelled

def JoinError.completion : JoinError → LifecycleError ε
  | .panicked => .runnerPanicked
  | .cancelled => .runnerCancelled

/-- What a task that was awaited has ended with. -/
def awaited : Except JoinError (Completion ε) → Completion ε
  | .ok result => result
  | .error error => .error error.completion

inductive TaskPhase (ε : Type) where
  | running
  | publishing (result : Completion ε)
  | finished (output : Except JoinError (Completion ε))

inductive JoinPhase (ε : Type) where
  | pending
  | reading (result : Completion ε)
  | resolved (result : Completion ε)

/-- The spawned runner and the future that is shared by all who wait for it. `ended` is how the
runner itself ended, once it has. -/
structure RunningTask (ε : Type) where
  phase : TaskPhase ε
  join : JoinPhase ε
  ended : Option (Completion ε)

/-- What all clones share. A startup check is an index into `pings`, with its result once it has
one; `spawned` counts the tasks that were spawned. -/
structure Shared (ε : Type) where
  runner : Bool
  task : Option (RunningTask ε)
  stopping : Bool
  connection : Option Nat
  completion : Option (CompletionRecord ε)
  pings : List (Option (Except ε Unit))
  spawned : Nat

def Shared.new : Shared ε := ⟨true, none, false, none, none, [], 0⟩

/-- How a call came to return. -/
inductive Return where
  | byStart
  | overloaded
  | ended
  deriving DecidableEq

/-- Where a call stands between two steps. -/
inductive Phase (ε : Type) where
  | idle
  | started
  | selecting
  | connecting (ping : Nat)
  | terminal (ping : Nat) (result : Completion ε)
  | startup (ping : Nat) (result : Completion ε)
  | connected (result : Completion ε)
  | stop
  | publishing
  | waiting
  | aborting
  | ending
  | reading (result : Completion ε)
  | returned (how : Return) (result : Completion ε)
  | cancelled

inductive CallKind where
  | start
  | run
  | stop
  deriving DecidableEq

structure Call (ε : Type) where
  kind : CallKind
  phase : Phase ε

structure Client (ε : Type) where
  shared : Shared ε
  calls : Nat → Call ε

def Client.new : Client ε := ⟨.new, fun _ => ⟨.start, .idle⟩⟩

/-- What `start` finds outside the lifecycle. -/
structure StartEnv where
  handleStopped : Bool
  runtime : Bool
  activates : Bool

namespace Shared

def publish (s : Shared ε) (result : Completion ε) : Shared ε :=
  { s with completion := Managed.publish s.completion result }

def start (s : Shared ε) (env : StartEnv) : Shared ε × Completion ε :=
  if s.stopping || env.handleStopped then (s, .error .alreadyStopped)
  else if s.task.isSome then (s, .ok ())
  else if !env.runtime then (s, .error .missingRuntime)
  else if !s.runner then (s, .error .alreadyStopped)
  else if !env.activates then ({ s with runner := false }, .error .alreadyStopped)
  else ({ s with
    runner := false, task := some ⟨.running, .pending, none⟩, spawned := s.spawned + 1 }, .ok ())

/-- The startup check that is shared, begun if there is none. -/
def connect (s : Shared ε) : Shared ε × Nat :=
  match s.connection with
  | some ping => (s, ping)
  | none =>
    ({ s with connection := some s.pings.length, pings := s.pings ++ [none] }, s.pings.length)

/-- The locked part of `shared_startup`. -/
def startup (s : Shared ε) : Shared ε × Phase ε :=
  if s.stopping then (s, .connected (.error .alreadyStopped))
  else
    match s.task with
    | some _ => (s.connect.1, .connecting s.connect.2)
    | none => (s.connect.1, .connected (.error .alreadyStopped))

/-- The locked part of `stop_with_timeout`. -/
def stop (s : Shared ε) : Shared ε × Phase ε :=
  ({ s with stopping := true, connection := none, runner := false },
    if s.task.isSome then .waiting else .publishing)

variable (category : ε → InvocationErrorCategory)

def isCategory (expected : InvocationErrorCategory) : LifecycleError ε → Bool
  | .connectivity error => category error = expected
  | _ => false

/-- The locked part of `run` after a startup that failed. -/
def failed (s : Shared ε) (error : LifecycleError ε) : Shared ε :=
  if s.stopping then s
  else if isCategory category .closed error then
    match s.completion with
    | some _ => s
    | none => { s with completion := some (.closedRequest error) }
  else s.publish (.error error)

def isOverloaded : Completion ε → Bool
  | .error error => isCategory category .overloaded error
  | .ok () => false

/-- The next step of a call that waits for nothing. -/
def advance (s : Shared ε) : Phase ε → Option (Shared ε × Phase ε)
  | .started =>
    match s.task with
    | some _ => some (s, .selecting)
    | none => some (s, .returned .byStart (.error .alreadyStopped))
  | .selecting => some s.startup
  | .connecting ping =>
    match s.pings[ping]? with
    | some (some (.ok ())) => some (s, .startup ping (.ok ()))
    | some (some (.error error)) => some (s, .startup ping (.error (.connectivity error)))
    | _ => none
  | .terminal ping result =>
    match borrow s.completion result with
    | .ok () => some (s, .startup ping (.error .alreadyStopped))
    | .error error => some (s, .startup ping (.error error))
  | .startup ping result =>
    if isOverloaded category result ∧ s.connection = some ping then
      some ({ s with connection := none }, .connected result)
    else some (s, .connected result)
  | .connected (.ok ()) => some (s, .ending)
  | .connected (.error error) =>
    if isCategory category .overloaded error then some (s, .returned .overloaded (.error error))
    else some (s.failed category error, .stop)
  | .stop => some s.stop
  | .publishing => some (s.publish (.ok ()), .reading (.ok ()))
  | .aborting => some (s, .ending)
  | .reading result => some (s, .returned .ended (borrow s.completion result))
  | _ => none

/-- A call that finds the shared join resolved. -/
def joined (s : Shared ε) : Phase ε → Option (Shared ε × Phase ε)
  | .selecting | .connecting _ | .waiting | .ending =>
    match s.task.map RunningTask.join with
    | some (.resolved result) => some (s.publish result, .reading result)
    | _ => none
  | _ => none

/-- The startup of a call that finds the shared join resolved. -/
def joinedInStartup (s : Shared ε) : Phase ε → Option (Shared ε × Phase ε)
  | .connecting ping =>
    match s.task.map RunningTask.join with
    | some (.resolved result) => some (s.publish result, .terminal ping result)
    | _ => none
  | _ => none

/-- A call whose deadline has passed. -/
def expired (s : Shared ε) : Phase ε → Option (Shared ε × Phase ε)
  | .waiting => some (s.publish (.error .shutdownTimeout), .aborting)
  | _ => none

/-- A caller that gives up waiting. -/
def cancel (s : Shared ε) : Phase ε → Option (Shared ε × Phase ε)
  | .connecting _ | .waiting | .ending => some (s, .cancelled)
  | _ => none

end Shared

/-- What the spawned task and the shared join do by themselves. A task can die whenever it runs:
through an abort after a deadline or a drop, or with its runtime. -/
inductive TaskEvent where
  | ends (ok : Bool)
  | reads
  | dies (error : JoinError)
  | joins
  | joinReads

def Shared.taskStep (s : Shared ε) (task : RunningTask ε) : TaskEvent → Option (Shared ε)
  | .ends ok =>
    match task.phase with
    | .running =>
      let result := if ok then .ok () else .error .runnerPanicked
      some { s.publish result with
        task := some { task with phase := .publishing result, ended := some result } }
    | _ => none
  | .reads =>
    match task.phase with
    | .publishing result => some { s with
        task := some { task with phase := .finished (.ok (borrow s.completion result)) } }
    | _ => none
  | .dies error =>
    match task.phase with
    | .running => some { s with task := some { task with
        phase := .finished (.error error), ended := some (.error error.completion) } }
    | _ => none
  | .joins =>
    match task.phase, task.join with
    | .finished output, .pending =>
      some { s.publish (awaited output) with
        task := some { task with join := .reading (awaited output) } }
    | _, _ => none
  | .joinReads =>
    match task.join with
    | .reading result => some { s with
        task := some { task with join := .resolved (borrow s.completion result) } }
    | _ => none

inductive LifecycleEvent (ε : Type) where
  | start (call : Nat) (env : StartEnv)
  | run (call : Nat) (env : StartEnv)
  | stop (call : Nat)
  | advance (call : Nat)
  | joined (call : Nat)
  | joinedInStartup (call : Nat)
  | expired (call : Nat)
  | cancel (call : Nat)
  | ping (ping : Nat) (result : Except ε Unit)
  | task (event : TaskEvent)

namespace Client

def put (c : Client ε) (call : Nat) (kind : CallKind) (next : Shared ε × Phase ε) : Client ε :=
  ⟨next.1, Function.update c.calls call ⟨kind, next.2⟩⟩

def begin (c : Client ε) (call : Nat) (kind : CallKind) (next : Shared ε × Phase ε) :
    Option (Client ε) :=
  match (c.calls call).phase with
  | .idle => some (c.put call kind next)
  | _ => none

/-- Go on with a call that has begun. -/
def proceed (c : Client ε) (call : Nat)
    (move : Shared ε → Phase ε → Option (Shared ε × Phase ε)) : Option (Client ε) :=
  (move c.shared (c.calls call).phase).map (c.put call (c.calls call).kind)

/-- What a call of `run` does first. -/
def runStart (s : Shared ε) (env : StartEnv) : Shared ε × Phase ε :=
  match s.start env with
  | (s, .ok ()) => (s, .started)
  | (s, .error error) => (s, .returned .byStart (.error error))

def step (category : ε → InvocationErrorCategory) (c : Client ε) :
    LifecycleEvent ε → Option (Client ε)
  | .start call env =>
    c.begin call .start ((c.shared.start env).1, .returned .byStart (c.shared.start env).2)
  | .run call env => c.begin call .run (runStart c.shared env)
  | .stop call => c.begin call .stop c.shared.stop
  | .advance call => c.proceed call (Shared.advance category)
  | .joined call => c.proceed call Shared.joined
  | .joinedInStartup call => c.proceed call Shared.joinedInStartup
  | .expired call => c.proceed call Shared.expired
  | .cancel call => c.proceed call Shared.cancel
  | .ping ping result =>
    match c.shared.pings[ping]? with
    | some none => some { c with
        shared := { c.shared with pings := c.shared.pings.set ping (some result) } }
    | _ => none
  | .task event =>
    match c.shared.task with
    | some task => (c.shared.taskStep task event).map fun s => { c with shared := s }
    | none => none

end Client

end Managed

end Grammers
