import Grammers.Encrypted

namespace Grammers

open Checked CursorReader

def DeserializeError.ofTl : Tl.TlError → DeserializeError
  | .unexpectedEof => .messageBufferTooSmall
  | .depthLimitExceeded => .resourceLimit "TL nesting depth"
  | .unexpectedConstructor id => .unexpectedConstructor id

abbrev Parsed (α : Type) : Type := Except (Fault DeserializeError) α

/-- Read on from a cursor, with the error of this layer. -/
def parse {α : Type} (r : Tl.Read α) (c : Cursor Nat) : Parsed (α × Cursor Nat) :=
  match r c with
  | .ok v c => .ok (v, c)
  | .error (.error e) _ => .error (.error (.ofTl e))
  | .error .panic _ => .error .panic

def fromBytes {α : Type} (r : Tl.Read α) (bytes : Bytes) : Parsed α :=
  (parse r (Tl.fromSlice bytes)).map Prod.fst

def invalidEnvelope (reason : String) : Fault DeserializeError := .error (.invalidEnvelope reason)

/-- A message is read as long as it says it is, in whole words and not without a constructor. -/
def ManualTl.Message.deserialize : Tl.Read ManualTl.Message := do
  let msgId ← Tl.deserializeI64
  let seqNo ← Tl.deserializeI32
  let len ← Tl.deserializeI32
  if len < 0 then throw Tl.eof
  else if len.toNatClampNeg < 4 ∨ len.toNatClampNeg % 4 ≠ 0 then throw Tl.eof
  else
    let body ← Tl.readSlice len.toNatClampNeg
    pure ⟨msgId, seqNo, body⟩

def constructorId (body : Bytes) : Parsed UInt32 := fromBytes Tl.deserializeU32 body

def ManualTl.Message.requiresAck (message : ManualTl.Message) : Bool := message.seqNo % 2 == 1

def rpcResultId : UInt32 := 0xf35c6d01

def gzipPackedId : UInt32 := 0x3072cfa1

/-- The request a result is for, and the result. -/
def rpcResultParts (body : Bytes) : Parsed (Int64 × Bytes) := do
  let (constructor, c) ← parse Tl.deserializeU32 (Tl.fromSlice body)
  if constructor ≠ rpcResultId then .error (.error (.unexpectedConstructor constructor))
  else
    let (reqMsgId, c) ← parse Tl.deserializeI64 c
    .ok (reqMsgId, body.drop c.pos)

/-- A message inside of a container of the server. -/
def validInner (parent : Int64) (inner : ManualTl.Message) : Bool :=
  0 < inner.msgId ∧ inner.msgId % 2 = 1 ∧ inner.msgId < parent ∧ 0 ≤ inner.seqNo

/-- The messages of a container, each checked before the next is read. -/
def checkMessages (parent : Int64) : Nat → Cursor Nat → Parsed (List ManualTl.Message × Cursor Nat)
  | 0, c => .ok ([], c)
  | n + 1, c => do
    let (inner, c) ← parse ManualTl.Message.deserialize c
    if validInner parent inner = false then .error (invalidEnvelope "invalid message envelope")
    else
      let (messages, c) ← checkMessages parent n c
      .ok (inner :: messages, c)

/-- The messages of a container, all of which are checked before any is handled. -/
def borrowedMessagesValidated (bytes : Bytes) (parent : Int64) : Parsed (List ManualTl.Message) := do
  let (constructor, c) ← parse Tl.deserializeU32 (Tl.fromSlice bytes)
  if constructor ≠ Encrypted.messageContainer then
    .error (.error (.unexpectedConstructor constructor))
  else
    let (count, c) ← parse Tl.deserializeI32 c
    if count < 0 then .error (invalidEnvelope "invalid message envelope")
    else
      let count := count.toNatClampNeg
      let data := bytes.drop c.pos
      if count > 1024 ∨ count > data.length / Message.sizeOverhead then
        .error (invalidEnvelope "invalid message envelope")
      else
        let (messages, check) ← checkMessages parent count (Tl.fromSlice data)
        if check.pos ≠ data.length then .error (invalidEnvelope "invalid message envelope")
        else .ok messages

/-- What comes out of a compressed member: its bytes, and where it ends in the input, if it does not
fail after them. -/
structure Inflated where
  output : Bytes
  ended : Option Nat
  deriving DecidableEq

variable (inflate : Bytes → Inflated)

/-- Output past the limit is found before any failure that follows it. -/
def decompressPayloadLimited (packed : Bytes) (limit : Nat) : Except DeserializeError Bytes :=
  let member := inflate packed
  if limit < member.output.length then .error (.resourceLimit "gzip output")
  else
    match member.ended with
    | none => .error .decompressionFailed
    | some position =>
      if position ≠ packed.length then .error .decompressionFailed else .ok member.output

/-- The content of a compressed object, no longer than the limit. -/
def decompressFromBytesLimited (bytes : Bytes) (limit : Nat) : Parsed Bytes := do
  let (constructor, c) ← parse Tl.deserializeU32 (Tl.fromSlice bytes)
  if constructor ≠ gzipPackedId then .error (.error (.unexpectedConstructor constructor))
  else
    let (packed, c) ← parse Tl.readBytes c
    if c.pos ≠ bytes.length then .error (.error .decompressionFailed)
    else (decompressPayloadLimited inflate packed limit).mapError .error

/-- A boxed value of one of several constructors. -/
def boxed {α : Type} (variants : List (UInt32 × Tl.Read α)) : Tl.Read α := do
  let id ← Tl.deserializeU32
  match variants.find? (·.1 = id) with
  | some (_, fields) => fields
  | none => throw (.error (.unexpectedConstructor id))

structure BadMsgNotification where
  badMsgId : Int64
  errorCode : Int32
  /-- The salt of `bad_server_salt`. -/
  newServerSalt : Option Int64
  deriving DecidableEq

structure FutureSalts where
  reqMsgId : Int64
  now : Int32
  salts : List FutureSalt
  deriving DecidableEq

def readMsgsAck : Tl.Read (List Int64) :=
  boxed [(0x62d6b459, Tl.deserializeVec Tl.deserializeI64)]

def readBadMsgNotification : Tl.Read BadMsgNotification :=
  boxed
    [(0xa7eff811, do
        let badMsgId ← Tl.deserializeI64
        let _ ← Tl.deserializeI32
        let errorCode ← Tl.deserializeI32
        pure ⟨badMsgId, errorCode, none⟩),
      (0xedab447b, do
        let badMsgId ← Tl.deserializeI64
        let _ ← Tl.deserializeI32
        let errorCode ← Tl.deserializeI32
        let newServerSalt ← Tl.deserializeI64
        pure ⟨badMsgId, errorCode, some newServerSalt⟩)]

/-- The message that answers, which is all that is used. -/
def readMsgDetailedInfo : Tl.Read Int64 :=
  boxed
    [(0x276d3ec6, do
        let _ ← Tl.deserializeI64
        let answerMsgId ← Tl.deserializeI64
        let _ ← Tl.deserializeI32
        let _ ← Tl.deserializeI32
        pure answerMsgId),
      (0x809db6df, do
        let answerMsgId ← Tl.deserializeI64
        let _ ← Tl.deserializeI32
        let _ ← Tl.deserializeI32
        pure answerMsgId)]

def readFutureSalt : Tl.Read FutureSalt := do
  let validSince ← Tl.deserializeI32
  let validUntil ← Tl.deserializeI32
  let salt ← Tl.deserializeI64
  pure ⟨validSince, validUntil, salt⟩

def futureSaltsId : UInt32 := 0xae500895

def readFutureSalts : Tl.Read FutureSalts :=
  boxed
    [(futureSaltsId, do
        let reqMsgId ← Tl.deserializeI64
        let now ← Tl.deserializeI32
        let salts ← Tl.deserializeVector readFutureSalt
        pure ⟨reqMsgId, now, salts⟩)]

/-- The message that a pong answers. -/
def readPong : Tl.Read Int64 :=
  boxed
    [(0x347773c5, do
        let msgId ← Tl.deserializeI64
        let _ ← Tl.deserializeI64
        pure msgId)]

/-- The salt of a new session. -/
def readNewSession : Tl.Read Int64 :=
  boxed
    [(0x9ec20908, do
        let _ ← Tl.deserializeI64
        let _ ← Tl.deserializeI64
        let serverSalt ← Tl.deserializeI64
        pure serverSalt)]

def rpcErrorId : UInt32 := 0x2144ca19

def readRpcError : Tl.Read TlRpcError :=
  boxed
    [(rpcErrorId, do
        let errorCode ← Tl.deserializeI32
        let errorMessage ← Tl.deserializeString
        pure ⟨errorCode, errorMessage⟩)]

end Grammers
