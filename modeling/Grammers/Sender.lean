import Grammers.Mtp
import Grammers.SwapRemove
import Grammers.TlPrimitives

namespace Grammers

open SwapRemove

/-- A channel that takes one result. -/
abbrev Tx : Type := Nat

inductive IoKind where
  | connectionReset
  | writeZero
  | invalidData
  | timedOut
  | other
  deriving DecidableEq

inductive ReadError where
  | io (kind : IoKind)
  | transport (error : TransportError)
  | deserialize (error : DeserializeError)
  deriving DecidableEq

/-- What the caller of a request receives. -/
inductive Outcome where
  | ok (body : Bytes)
  | rpc (error : TlRpcError) (causedBy : UInt32)
  | deserialize (error : DeserializeError)
  | badMessage (code : Int32) (retries : Nat)
  | read (error : ReadError) (mayHaveBeenSent : Bool)
  | invalidInput
  deriving DecidableEq

structure MsgIdPair where
  msgId : MsgId
  containerMsgId : MsgId
  deriving DecidableEq

/-- By default there is no container, and the last identifier is that of the message itself. -/
def MsgIdPair.new (msgId : MsgId) : MsgIdPair := ⟨msgId, msgId⟩

def MsgIdPair.Names (pair : MsgIdPair) (id : MsgId) : Prop :=
  pair.msgId = id ∨ pair.containerMsgId = id

instance (pair : MsgIdPair) (id : MsgId) : Decidable (pair.Names id) :=
  inferInstanceAs (Decidable (_ ∨ _))

inductive RequestState where
  | notSerialized
  | serialized (pair : MsgIdPair)
  | sent (pair : MsgIdPair)
  deriving DecidableEq

def RequestState.pair : RequestState → Option MsgIdPair
  | .notSerialized => none
  | .serialized pair => some pair
  | .sent pair => some pair

/-- A request of a caller, or a keepalive when it has no channel. The tag is which of the requests
that were ever enqueued it is; the constructor of the body was read when it was enqueued. -/
structure Request where
  tag : Nat
  protocolRetries : Nat
  body : Bytes
  state : RequestState
  result : Option Tx
  four_le_length : 4 ≤ body.length
  deriving DecidableEq

def Request.constructorId (r : Request) : UInt32 :=
  UInt32.ofNat (LittleEndian.ofBytes (r.body.take 4))

/-- What a sender does that is seen outside, and what it asks of its parts. -/
inductive Event where
  | pushed (tag : Nat) (msgId : MsgId)
  | finalized (id : MsgId)
  | wrote (n : Nat)
  | flushed
  | rejected (id : MsgId)
  | completed (tx : Tx) (outcome : Outcome)
  | ownUpdate (update : Bytes) (request : Option Bytes)
  | update (update : Bytes)
  deriving DecidableEq

def Request.complete (r : Request) (outcome : Outcome) : List Event :=
  match r.result with
  | some tx => [.completed tx outcome]
  | none => []

/-- The sending side, with the channels whose receiver is gone and how many requests were ever
enqueued. -/
structure Sender (σ τ : Type) where
  transport : τ
  mtp : σ
  requests : List Request
  writeBuffer : Bytes
  writeHead : Nat
  closed : List Tx
  enqueued : Nat

namespace Sender

variable {σ τ : Type}

def connect (transport : τ) (mtp : σ) : Sender σ τ where
  transport := transport
  mtp := mtp
  requests := []
  writeBuffer := []
  writeHead := 0
  closed := []
  enqueued := 0

variable (m : Mtp σ) (f : Framing τ)

/-- A request that is not valid is answered at once; one that is valid and has no constructor
panics. -/
def enqueueRequest (s : Sender σ τ) (body : Bytes) (result : Option Tx) :
    Option (Sender σ τ × List Event) :=
  if m.requestIsValid s.mtp body then
    if h : 4 ≤ body.length then
      let request := ⟨s.enqueued, 0, body, .notSerialized, result, h⟩
      some ({ s with requests := s.requests ++ [request], enqueued := s.enqueued + 1 }, [])
    else none
  else
    some ({ s with enqueued := s.enqueued + 1 },
      match result with
      | some tx => [.completed tx .invalidInput]
      | none => [])

def enqueueTrackedBody (s : Sender σ τ) (body : Bytes) (closed : Bool) :
    Option (Sender σ τ × List Event) :=
  if closed then some ({ s with enqueued := s.enqueued + 1 }, [])
  else s.enqueueRequest m body (some s.enqueued)

/-- Whether the channel of a request is there and its receiver is gone. -/
def isClosed (closed : List Tx) (r : Request) : Bool := r.result.any closed.contains

/-- Serialize what is not yet serialized, until a request does not fit. -/
def fillLoop : σ → Bytes → List Request → List Request × List Event × σ × Bytes
  | mtp, buffer, [] => ([], [], mtp, buffer)
  | mtp, buffer, r :: rs =>
    match r.state with
    | .notSerialized =>
      match m.push mtp buffer r.body with
      | (none, mtp, buffer) => (r :: rs, [], mtp, buffer)
      | (some msgId, mtp, buffer) =>
        let (rs, events, mtp, buffer) := fillLoop mtp buffer rs
        ({ r with state := .serialized (.new msgId) } :: rs, .pushed r.tag msgId :: events, mtp, buffer)
    | _ =>
      let (rs, events, mtp, buffer) := fillLoop mtp buffer rs
      (r :: rs, events, mtp, buffer)

def setContainer (id : MsgId) (r : Request) : Request :=
  match r.state with
  | .serialized pair => { r with state := .serialized { pair with containerMsgId := id } }
  | _ => r

/-- Only what was neither sent nor framed can be dropped. -/
def retainable (closed : List Tx) (r : Request) : Bool :=
  r.state ≠ .notSerialized || !isClosed closed r

def tryFillWrite (s : Sender σ τ) : Option (Sender σ τ × List Event) :=
  let s := { s with requests := s.requests.filter (retainable s.closed) }
  if s.writeBuffer ≠ [] then some (s, [])
  else
    let (requests, events, mtp, buffer) := fillLoop m s.mtp s.writeBuffer s.requests
    match m.finalize mtp buffer with
    | (none, mtp, buffer) =>
      some ({ s with requests := requests, mtp := mtp, writeBuffer := buffer }, events)
    | (some id, mtp, buffer) =>
      match f.pack s.transport buffer with
      | none => none
      | some (transport, buffer) =>
        some ({ s with
          requests := requests.map (setContainer id)
          mtp := mtp
          transport := transport
          writeBuffer := buffer }, events ++ [.finalized id])

def markSent (r : Request) : Request :=
  match r.state with
  | .serialized pair => { r with state := .sent pair }
  | _ => r

def onNetWrite (s : Sender σ τ) (n : Nat) : Option (Sender σ τ × List Event × Option ReadError) :=
  if n = 0 ∧ s.writeBuffer ≠ [] then some (s, [], some (.io .writeZero))
  else
    let s := { s with writeHead := s.writeHead + n }
    if s.writeHead > s.writeBuffer.length then none
    else if s.writeHead ≠ s.writeBuffer.length then some (s, [.wrote n], none)
    else
      some ({ s with writeBuffer := [], writeHead := 0, requests := s.requests.map markSent },
        [.wrote n, .flushed], none)

def noPingDisconnect : Int32 := 75

def pingDelayDisconnect (pingId : Int64) : Bytes :=
  Tl.serializeU32 0xf3427b8c ++ (Tl.serializeI64 pingId ++ Tl.serializeI32 noPingDisconnect)

def isSent : RequestState → Bool
  | .sent _ => true
  | _ => false

/-- A keepalive that was sent is given up; one that is not is not joined by another. -/
def onPingTimeout (s : Sender σ τ) (pingId : Int64) : Option (Sender σ τ × List Event) :=
  let s := { s with requests := s.requests.filter fun r => r.result.isSome || !isSent r.state }
  if s.requests.any fun r => r.result.isNone then some (s, [])
  else s.enqueueRequest m (pingDelayDisconnect pingId) none

def mayHaveBeenSent (writeHead : Nat) : RequestState → Bool
  | .notSerialized => false
  | .serialized _ => writeHead != 0
  | .sent _ => true

def onError (s : Sender σ τ) (error : ReadError) : Sender σ τ × List Event :=
  ({ s with requests := [] },
    s.requests.flatMap fun r => r.complete (.read error (mayHaveBeenSent s.writeHead r.state)))

def unsentResponse : ReadError :=
  .deserialize (.invalidEnvelope "response for an unsent request")

def carries (msgId : MsgId) (r : Request) : Bool :=
  r.state.pair.any fun pair => pair.msgId = msgId

def peekRequest (requests : List Request) (msgId : MsgId) : Option Request :=
  requests.find? (carries msgId)

/-- Take out the request of a message, unless it has not been sent. -/
def popRequest (requests : List Request) (msgId : MsgId) :
    Except ReadError (Option Request × List Request) :=
  match requests.findIdx? (carries msgId) with
  | none => .ok (none, requests)
  | some i =>
    match requests[i]? with
    | none => .ok (none, requests)
    | some r =>
      match r.state with
      | .serialized _ => .error unsentResponse
      | _ => .ok (some r, swapRemove requests i)

/-- Complete the request of a message with what it was answered. -/
def answer (requests : List Request) (msgId : MsgId) (outcome : Request → Outcome) :
    List Request × List Event × Option ReadError :=
  match popRequest requests msgId with
  | .error e => (requests, [], some e)
  | .ok (none, requests) => (requests, [], none)
  | .ok (some r, requests) => (requests, r.complete (outcome r), none)

def processResult (requests : List Request) (msgId : MsgId) (body : Bytes) :
    List Request × List Event × Option ReadError :=
  answer requests msgId fun _ =>
    if body.length < 4 then .deserialize .messageBufferTooSmall else .ok body

def processError (requests : List Request) (msgId : MsgId) (error : TlRpcError) :
    List Request × List Event × Option ReadError :=
  answer requests msgId fun r => .rpc error r.constructorId

def processDeserializeError (requests : List Request) (msgId : MsgId) (error : DeserializeError) :
    List Request × List Event × Option ReadError :=
  answer requests msgId fun _ => .deserialize error

/-- What a rejected message means for one request. -/
def badMessageVerdict (closed : List Tx) (bad : BadMessage) (r : Request) :
    Verdict Request (List Event) ReadError :=
  match r.state with
  | .notSerialized => .keep r
  | .serialized pair => if pair.Names bad.msgId then .fail unsentResponse else .keep r
  | .sent pair =>
    if pair.Names bad.msgId then
      if isClosed closed r then .remove []
      else if bad.retryable ∧ r.protocolRetries < 3 then
        .keep { r with state := .notSerialized, protocolRetries := r.protocolRetries + 1 }
      else .remove (r.complete (.badMessage bad.code r.protocolRetries))
    else .keep r

def processBadMessage (closed : List Tx) (requests : List Request) (bad : BadMessage) :
    List Request × List Event × Option ReadError :=
  let (rs, outs, e) := sweep (badMessageVerdict closed bad) requests.length requests
  (rs, .rejected bad.msgId :: outs.flatten, e)

def processItem (closed : List Tx) (requests : List Request) :
    Deserialization → List Request × List Event × Option ReadError
  | .ownUpdate msgId update =>
    (requests, [.ownUpdate update ((peekRequest requests msgId).map Request.body)], none)
  | .update update => (requests, [.update update], none)
  | .rpcResult msgId body => processResult requests msgId body
  | .rpcError msgId error => processError requests msgId error
  | .badMessage bad => processBadMessage closed requests bad
  | .failure msgId error => processDeserializeError requests msgId error

def processMtpBuffer (closed : List Tx) :
    List Request → List Deserialization → List Request × List Event × Option ReadError
  | requests, [] => (requests, [], none)
  | requests, item :: items =>
    match processItem closed requests item with
    | (requests, events, some e) => (requests, events, some e)
    | (requests, events, none) =>
      let (requests, more, e) := processMtpBuffer closed requests items
      (requests, events ++ more, e)

/-- What was read holds these payloads, and then what is no packet. -/
def onNetRead (s : Sender σ τ) : List Bytes → Option ReadError →
    Sender σ τ × List Event × Option ReadError
  | [], fault => (s, [], fault)
  | payload :: payloads, fault =>
    match m.deserialize s.mtp payload with
    | (.error e, mtp) => ({ s with mtp := mtp }, [], some (.deserialize e))
    | (.ok items, mtp) =>
      match processMtpBuffer s.closed s.requests items with
      | (requests, events, some e) => ({ s with mtp := mtp, requests := requests }, events, some e)
      | (requests, events, none) =>
        let (s, more, e) := onNetRead { s with mtp := mtp, requests := requests } payloads fault
        (s, events ++ more, e)

/-- What is asked of a sender; a result channel may be closed and the protocol set up at any time. -/
inductive Call (σ : Type) where
  | enqueue (body : Bytes) (closed : Bool)
  | cancel (tx : Tx)
  | configure (mtp : σ)
  | tryFillWrite
  | onNetWrite (n : Nat)
  | onNetRead (payloads : List Bytes) (fault : Option ReadError)
  | processMtpBuffer (items : List Deserialization)
  | onServiceTimeout
  | onPingTimeout (pingId : Int64)
  | onError (error : ReadError)

/-- What a call does; nothing where it panics. -/
def call (s : Sender σ τ) : Call σ → Option (Sender σ τ × List Event)
  | .enqueue body closed => s.enqueueTrackedBody m body closed
  | .cancel tx => some ({ s with closed := tx :: s.closed }, [])
  | .configure mtp => some ({ s with mtp := mtp }, [])
  | .tryFillWrite => s.tryFillWrite m f
  | .onNetWrite n => (s.onNetWrite n).map fun (s, events, _) => (s, events)
  | .onNetRead payloads fault =>
    let (s, events, _) := s.onNetRead m payloads fault
    some (s, events)
  | .processMtpBuffer items =>
    let (requests, events, _) := processMtpBuffer s.closed s.requests items
    some ({ s with requests := requests }, events)
  | .onServiceTimeout => some ({ s with mtp := m.onServiceTimeout s.mtp }, [])
  | .onPingTimeout pingId => s.onPingTimeout m pingId
  | .onError error => some (s.onError error)

def run : Sender σ τ → List (Call σ) → Option (Sender σ τ × List Event)
  | s, [] => some (s, [])
  | s, c :: cs => do
    let (s, events) ← s.call m f c
    let (s, more) ← run s cs
    some (s, events ++ more)

end Sender

end Grammers
