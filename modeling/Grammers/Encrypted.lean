import Grammers.Ige
import Grammers.Mtp
import Grammers.ReplayModel

namespace Grammers

def numFutureSalts : Int32 := 64

def saltUseDelay : Int := 60

/-- Instants are counted in nanoseconds. -/
def nanosPerSec : Nat := 10 ^ 9

def ackMaxDelay : Nat := 10 * nanosPerSec

/-- What is read from outside: clocks and randomness, each reading whatever it is. -/
structure World where
  instant : Nat → Nat
  system : Nat → Nat × Nat
  random : Nat → { b : Bytes // b.length = 32 }

/-- The functions encryption is made of: a hash of 32 bytes and a block cipher for each key. -/
structure Crypto where
  sha256 : Bytes → Bytes
  length_sha256 : ∀ b, (sha256 b).length = 32
  aes256 : Bytes → Ige.Cipher

structure AuthKey where
  data : { b : Bytes // b.length = 256 }
  keyId : { b : Bytes // b.length = 8 }

structure FutureSalt where
  validSince : Int32
  validUntil : Int32
  salt : Int64
  deriving DecidableEq

structure DecodeLimits where
  gzipOutput : Nat
  expandedBytes : Nat
  depth : Nat
  work : Nat
  deriving DecidableEq

structure Encrypted where
  received : Received
  decodeLimits : DecodeLimits
  authKey : AuthKey
  timeOffset : Int64
  salts : List FutureSalt
  startSaltTime : Option (Int32 × Nat)
  saltRequestMsgId : Option MsgId
  saltRequestFailures : UInt8
  sessionId : Int64
  sequence : Int32
  lastMsgId : Int64
  pendingAck : List Int64
  pendingAckSince : Option Nat
  ackFlushDue : Bool
  requestDeferredByAck : Bool
  ackBatch : Nat
  compressionThreshold : Option Nat
  receiveUpdates : Bool
  msgCount : Nat
  /-- How often the world was read. -/
  reads : Nat

/-- A message as it is on the wire. -/
structure ManualTl.Message where
  msgId : Int64
  seqNo : Int32
  body : Bytes
  deriving DecidableEq

def ManualTl.Message.serialize (message : ManualTl.Message) : Bytes :=
  Tl.serializeI64 message.msgId ++ (Tl.serializeI32 message.seqNo ++
    (Tl.serializeI32 (Int32.ofNat message.body.length) ++ message.body))

def msgsAck (ids : List Int64) : Bytes :=
  Tl.serializeU32 0x62d6b459 ++ Tl.serializeVec Tl.serializeI64 ids

def gzipPacked (packedData : Bytes) : Bytes :=
  Tl.serializeU32 0x3072cfa1 ++ Tl.serializeBytes packedData

def getFutureSalts (num : Int32) : Bytes := Tl.serializeU32 0xb921bd04 ++ Tl.serializeI32 num

/-- What was added to a packet: acknowledgements, or any other message. -/
inductive Written where
  | ack (msgId : Int64) (seqNo : Int32) (ids : List Int64)
  | other (message : ManualTl.Message)
  deriving DecidableEq

def Written.message : Written → ManualTl.Message
  | .ack msgId seqNo ids => ⟨msgId, seqNo, msgsAck ids⟩
  | .other message => message

def Written.ids : Written → List Int64
  | .ack _ _ ids => ids
  | .other _ => []

/-- How a session is set up. -/
structure Builder where
  decodeLimits : DecodeLimits
  timeOffset : Int32
  firstSalt : Int64
  compressionThreshold : Option Nat
  receiveUpdates : Bool
  ackBatch : Nat

def Builder.finish (b : Builder) (authKey : AuthKey) (sessionId : Int64) : Encrypted where
  received := .new
  decodeLimits := b.decodeLimits
  authKey := authKey
  timeOffset := b.timeOffset.toInt64
  salts := [⟨0, Int32.maxValue, b.firstSalt⟩]
  startSaltTime := none
  saltRequestMsgId := none
  saltRequestFailures := 0
  sessionId := sessionId
  sequence := 0
  lastMsgId := 0
  pendingAck := []
  pendingAckSince := none
  ackFlushDue := false
  requestDeferredByAck := false
  ackBatch := max b.ackBatch 1
  compressionThreshold := b.compressionThreshold
  receiveUpdates := b.receiveUpdates
  msgCount := 0
  reads := 0

namespace Encrypted

def tick (s : Encrypted) : Encrypted := { s with reads := s.reads + 1 }

def saturatingAdd64 (a b : Int64) : Int64 := Int64.ofIntClamp (a.toInt + b.toInt)

variable (w : World)

def correctTimeOffset (s : Encrypted) (msgId : Int64) : Encrypted :=
  let now := Int64.ofNat (min (w.system s.reads).1 Int64.maxValue.toInt.toNat)
  let serverSeconds := msgId >>> 32
  { s.tick with
    timeOffset := serverSeconds - now
    lastMsgId := if s.lastMsgId >>> 32 > serverSeconds + 3 then 0 else s.lastMsgId }

def getNewMsgId (s : Encrypted) : Int64 × Encrypted :=
  let (secs, nanos) := w.system s.reads
  let now := Int64.ofNat (min secs Int64.maxValue.toInt.toNat)
  let seconds := (max (saturatingAdd64 now s.timeOffset) 0).toUInt64
  let newMsgId := ((seconds <<< 32) ||| (UInt64.ofNat nanos <<< 2)).toInt64
  let newMsgId := if s.lastMsgId ≥ newMsgId then s.lastMsgId + 4 else newMsgId
  (newMsgId, { s.tick with lastMsgId := newMsgId })

def getSeqNo (s : Encrypted) (contentRelated : Bool) : Int32 × Encrypted :=
  if contentRelated then (s.sequence + 2 - 1, { s with sequence := s.sequence + 2 })
  else (s.sequence, s)

def serializeMsgHeader (s : Encrypted) (buffer : Bytes) (bodyLen : Nat) (contentRelated : Bool) :
    Int64 × Int32 × Encrypted × Bytes :=
  let (msgId, s) := s.getNewMsgId w
  let (seqNo, s) := s.getSeqNo contentRelated
  (msgId, seqNo, { s with msgCount := s.msgCount + 1 },
    buffer ++ (Tl.serializeI64 msgId ++ (Tl.serializeI32 seqNo ++
      Tl.serializeI32 (Int32.ofNat bodyLen))))

def serializeMsg (s : Encrypted) (buffer body : Bytes) (contentRelated : Bool) :
    Int64 × Encrypted × Bytes × List Written :=
  let (msgId, seqNo, s, buffer) := s.serializeMsgHeader w buffer body.length contentRelated
  (msgId, s, buffer ++ body, [.other ⟨msgId, seqNo, body⟩])

def messageFits (s : Encrypted) (buffer : Bytes) (bodyLen : Nat) : Bool :=
  s.msgCount < MessageContainer.maximumLength ∧
    buffer.length + Message.sizeOverhead + bodyLen ≤ MessageContainer.maximumSize

/-- Whether the pending acknowledgements go out with the next message. -/
def ackDue (s : Encrypted) : Bool × Encrypted :=
  let count := s.pendingAck.length
  if count = 0 then (false, s)
  else if s.ackFlushDue ∨ count ≥ s.ackBatch then (true, s)
  else
    match s.pendingAckSince with
    | none => (true, s)
    | some since => (decide (w.instant s.reads - since ≥ ackMaxDelay), s.tick)

def serializePendingAck (s : Encrypted) (buffer : Bytes) : Encrypted × Bytes × List Written :=
  let available := (MessageContainer.maximumSize - (buffer.length + Message.sizeOverhead + 12)) / 8
  let count := min (min s.pendingAck.length 8192) available
  if count = 0 ∨ s.messageFits buffer (12 + count * 8) = false then (s, buffer, [])
  else
    let (msgId, seqNo, s, buffer) := s.serializeMsgHeader w buffer (12 + count * 8) false
    let ids := s.pendingAck.take count
    let buffer := buffer ++ (Tl.serializeU32 0x62d6b459 ++ (Tl.serializeU32 0x1cb5c415 ++
      (Tl.serializeI32 (Int32.ofNat count) ++ ids.flatMap Tl.serializeI64)))
    let s := { s with pendingAck := s.pendingAck.drop count }
    let s := if s.pendingAck = [] then { s with pendingAckSince := none, ackFlushDue := false }
      else s
    (s, buffer, [.ack msgId seqNo ids])

def getCurrentSalt (s : Encrypted) : Int64 := (s.salts.getLast?.map FutureSalt.salt).getD 0

def tryRequestSalts (s : Encrypted) (buffer : Bytes) : Encrypted × Bytes × List Written :=
  if buffer = [] ∧ s.salts.length = 1 ∧ s.saltRequestMsgId = none ∧ s.saltRequestFailures ≤ 3 ∧
      s.getCurrentSalt ≠ 0 ∧ s.messageFits buffer 8 then
    let (msgId, s, buffer, written) := s.serializeMsg w buffer (getFutureSalts numFutureSalts) true
    ({ s with saltRequestMsgId := some msgId }, buffer, written)
  else (s, buffer, [])

def messageContainer : UInt32 := 0x73f1f8dc

/-- Prepend a container to more than one message, and the packet header to any. -/
def finalizePlain (s : Encrypted) (buffer : Bytes) : Encrypted × Bytes :=
  if s.msgCount = 0 then (s, buffer)
  else
    let (s, buffer) :=
      if s.msgCount ≠ 1 then
        let len := Int32.ofNat (buffer.length + 8)
        let (msgId, s) := s.getNewMsgId w
        let (seqNo, s) := s.getSeqNo false
        (s, (Tl.serializeI64 msgId ++ (Tl.serializeI32 seqNo ++ (Tl.serializeI32 len ++
          (Tl.serializeU32 messageContainer ++ Tl.serializeI32 (Int32.ofNat s.msgCount))))) ++ buffer)
      else (s, buffer)
    ({ s with msgCount := 0 },
      (Tl.serializeI64 s.getCurrentSalt ++ Tl.serializeI64 s.sessionId) ++ buffer)

def serviceDeadline (s : Encrypted) : Option Nat := s.pendingAckSince.map (· + ackMaxDelay)

def onServiceTimeout (s : Encrypted) : Encrypted := { s with ackFlushDue := s.pendingAck ≠ [] }

/-- The next salt is used once it has been valid for long enough. -/
def rotateSalts (s : Encrypted) : Encrypted :=
  match s.startSaltTime with
  | none => s
  | some (startSecs, startInstant) =>
    if s.salts.length > 1 then
      match s.salts[s.salts.length - 2]? with
      | none => s
      | some salt =>
        let elapsed := (w.instant s.reads - startInstant) / nanosPerSec
        let now := startSecs.toInt + min elapsed Int32.maxValue.toInt.toNat
        if now ≥ salt.validSince.toInt + saltUseDelay then { s.tick with salts := s.salts.dropLast }
        else s.tick
    else s

def invokeWithoutUpdates : UInt32 := 0xbf9459b7

variable (gzip : Bytes → Bytes)

/-- The body of a request: with its prefix, and compressed where that is shorter. -/
def requestBody (s : Encrypted) (request : Bytes) : Bytes :=
  let pre := (Tl.serializeU32 invokeWithoutUpdates).take
    (withoutUpdatesPrefixLen request s.receiveUpdates)
  if s.compressionThreshold.any fun threshold => pre.length + request.length ≥ threshold then
    let compressed := gzipPacked (gzip (pre ++ request))
    if compressed.length < pre.length + request.length then compressed else pre ++ request
  else pre ++ request

/-- Acknowledgements go first, unless they kept out the request before. -/
def pushAcks (s : Encrypted) (buffer : Bytes) : Encrypted × Bytes × List Written :=
  if s.requestDeferredByAck then (s, buffer, [])
  else
    let (due, s) := s.ackDue w
    if due then s.serializePendingAck w buffer else (s, buffer, [])

def pushRequest (s : Encrypted) (buffer request : Bytes) (wroteAck : Bool) :
    Option MsgId × Encrypted × Bytes × List Written :=
  let deferred := { s with requestDeferredByAck := s.requestDeferredByAck || wroteAck }
  if s.msgCount = MessageContainer.maximumLength then (none, deferred, buffer, [])
  else
    let body := s.requestBody gzip request
    if s.messageFits buffer body.length = false then (none, deferred, buffer, [])
    else
      let (msgId, s, buffer, written) := s.serializeMsg w buffer body true
      (some msgId, { s with requestDeferredByAck := false }, buffer, written)

def push (s : Encrypted) (buffer request : Bytes) :
    Option MsgId × Encrypted × Bytes × List Written :=
  if requestFits request s.receiveUpdates = false then (none, s, buffer, [])
  else
    let s := s.rotateSalts w
    let requestingSalt := s.saltRequestMsgId.isSome
    let (s, buffer, salts) := s.tryRequestSalts w buffer
    if !requestingSalt ∧ s.saltRequestMsgId.isSome then (none, s, buffer, salts)
    else
      let previousMsgCount := s.msgCount
      let (s, buffer, acks) := s.pushAcks w buffer
      let (id, s, buffer, written) :=
        s.pushRequest w gzip buffer request (decide (s.msgCount ≠ previousMsgCount))
      (id, s, buffer, salts ++ (acks ++ written))

/-- Acknowledgements that no request took along, unless the packet only asks for salts. -/
def finalizeAcks (s : Encrypted) (buffer : Bytes) : Encrypted × Bytes × List Written :=
  if s.msgCount = 1 ∧ s.saltRequestMsgId = some s.lastMsgId then (s, buffer, [])
  else
    let (due, s) := s.ackDue w
    if due then
      if s.ackFlushDue ∨ buffer ≠ [] ∨ s.pendingAck.length ≥ 8192 then s.serializePendingAck w buffer
      else if s.pendingAckSince.any fun since => w.instant s.reads - since ≥ ackMaxDelay then
        s.tick.serializePendingAck w buffer
      else (s.tick, buffer, [])
    else (s, buffer, [])

def calcKey (c : Crypto) (authKey : AuthKey) (msgKey : Bytes) (x : Nat) : Bytes × Bytes :=
  let a := c.sha256 (msgKey ++ (authKey.data.val.drop x).take 36)
  let b := c.sha256 ((authKey.data.val.drop (40 + x)).take 36 ++ msgKey)
  (a.take 8 ++ ((b.drop 8).take 16 ++ (a.drop 24).take 8),
    b.take 8 ++ ((a.drop 8).take 16 ++ (b.drop 24).take 8))

def determinePaddingV2Length (len : Nat) : Nat := 12 + (16 - (len + 12) % 16) % 16

def encryptDataV2 (c : Crypto) (authKey : AuthKey) (randomPadding buffer : Bytes) : Bytes :=
  let buffer := buffer ++ randomPadding.take (determinePaddingV2Length buffer.length)
  let msgKeyLarge := c.sha256 ((authKey.data.val.drop 88).take 32 ++ buffer)
  let msgKey := (msgKeyLarge.drop 8).take 16
  let (key, iv) := calcKey c authKey msgKey 0
  authKey.keyId.val ++ (msgKey ++ Ige.encrypt (c.aes256 key) iv buffer)

def finalize (c : Crypto) (s : Encrypted) (buffer : Bytes) :
    Option MsgId × Encrypted × Bytes × List Written :=
  let (s, buffer, written) := s.finalizeAcks w buffer
  let (s, buffer) := s.finalizePlain w buffer
  if buffer = [] then (none, s, buffer, written)
  else
    (some s.lastMsgId, s.tick, encryptDataV2 c s.authKey (w.random s.reads).val buffer, written)

end Encrypted

end Grammers
