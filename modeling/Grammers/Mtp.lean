import Grammers.TlPrimitives

namespace Grammers

abbrev MsgId : Type := Int64

inductive CryptoError where
  | invalidBuffer
  | authKeyMismatch
  | messageKeyMismatch
  deriving DecidableEq

inductive DeserializeError where
  | invalidEnvelope (reason : String)
  | resourceLimit (resource : String)
  | badAuthKey (got expected : Int64)
  | badMessageId (got : Int64)
  | negativeMessageLength (got : Int32)
  | tooLongMessageLength (got maxLength : Nat)
  | messageBufferTooSmall
  | decompressionFailed
  | unexpectedConstructor (id : UInt32)
  | decryptionError (error : CryptoError)
  deriving DecidableEq

/-- An error of the server, as it is on the wire. -/
structure TlRpcError where
  errorCode : Int32
  errorMessage : String
  deriving DecidableEq

structure BadMessage where
  msgId : MsgId
  code : Int32
  deriving DecidableEq

def BadMessage.retryable (bad : BadMessage) : Bool := [16, 17, 48].contains bad.code

inductive Deserialization where
  | ownUpdate (msgId : MsgId) (update : Bytes)
  | update (update : Bytes)
  | rpcResult (msgId : MsgId) (body : Bytes)
  | rpcError (msgId : MsgId) (error : TlRpcError)
  | badMessage (bad : BadMessage)
  | failure (msgId : MsgId) (error : DeserializeError)
  deriving DecidableEq

def Message.sizeOverhead : Nat := 16

def MessageContainer.sizeOverhead : Nat := 8

/-- What is left of a packet after all headers and the longest padding, in whole words. -/
def MessageContainer.maximumSize : Nat :=
  (0xff000 - 24 - 16 - 27 - 16 - MessageContainer.sizeOverhead) / 4 * 4

def MessageContainer.maximumLength : Nat := 100

/-- The constructors of requests that are never wrapped. -/
def unwrapped : List UInt32 :=
  [0x7abe77ec, 0xf3427b8c, 0xb921bd04, 0x58e4a740, 0xe7512126, 0xbf9459b7]

def Encrypted.withoutUpdatesPrefixLen (request : Bytes) (receiveUpdates : Bool) : Nat :=
  if receiveUpdates then 0
  else
    let constructor := if request.length < 4 then 0
      else UInt32.ofNat (LittleEndian.ofBytes (request.take 4))
    if unwrapped.contains constructor then 0 else 4

def Encrypted.requestFits (request : Bytes) (receiveUpdates : Bool) : Bool :=
  let len := request.length
  if len < 4 ∨ len % 4 ≠ 0 then false
  else
    let limit := MessageContainer.maximumSize - Message.sizeOverhead
    len ≤ limit - 4 ∨ len ≤ limit - withoutUpdatesPrefixLen request receiveUpdates

theorem Encrypted.four_le_of_requestFits {request : Bytes} {receiveUpdates : Bool}
    (h : requestFits request receiveUpdates = true) : 4 ≤ request.length := by
  unfold requestFits at h
  simp only at h
  split at h
  next => cases h
  next hlen => omega

/-- What serializes requests into a buffer and takes responses apart. -/
structure Mtp (σ : Type) where
  requestIsValid : σ → Bytes → Bool
  onServiceTimeout : σ → σ
  push : σ → Bytes → Bytes → Option MsgId × σ × Bytes
  finalize : σ → Bytes → Option MsgId × σ × Bytes
  deserialize : σ → Bytes → Except DeserializeError (List Deserialization) × σ

/-- What a sender relies on: a valid request has a constructor, a request that was given an
identifier is in the buffer, and finalizing returns an identifier just when there is a packet. -/
structure Mtp.Lawful {σ : Type} (m : Mtp σ) : Prop where
  valid_length : ∀ mtp body, m.requestIsValid mtp body = true → 4 ≤ body.length
  push_some : ∀ mtp buffer body id mtp' buffer',
    m.push mtp buffer body = (some id, mtp', buffer') → buffer' ≠ []
  push_none : ∀ mtp buffer body mtp' buffer', buffer ≠ [] →
    m.push mtp buffer body = (none, mtp', buffer') → buffer' ≠ []
  finalize_some : ∀ mtp buffer id mtp' buffer',
    m.finalize mtp buffer = (some id, mtp', buffer') → buffer' ≠ []
  finalize_none : ∀ mtp buffer mtp' buffer',
    m.finalize mtp buffer = (none, mtp', buffer') → buffer = []

/-- What frames a packet; it may panic. -/
structure Framing (τ : Type) where
  pack : τ → Bytes → Option (τ × Bytes)
  pack_ne_nil : ∀ t buffer t' buffer', buffer ≠ [] → pack t buffer = some (t', buffer') → buffer' ≠ []

end Grammers
