import Grammers.TransportCode

namespace Grammers

open Checked Incremental

/-- A stream cipher: each byte is combined with the key stream at its own position. -/
def xorStream (keystream : Nat → UInt8) : Nat → Bytes → Bytes
  | _, [] => []
  | position, b :: bs => (b ^^^ keystream position) :: xorStream keystream (position + 1) bs

inductive UnpackFault where
  | fault (f : Fault TransportError)
  | smallerThanDecrypted
  deriving DecidableEq

structure Obfuscated where
  inner : Transport
  decryptTail : Nat
  position : Nat
  deriving DecidableEq

/-- Unpack a buffer in place: what has not been decrypted yet is decrypted first. -/
def Obfuscated.unpack (crc32 : Bytes → UInt32) (keystream : Nat → UInt8) (o : Obfuscated)
    (buffer : Bytes) : Except UnpackFault UnpackedOffset × Obfuscated × Bytes :=
  if buffer.length < o.decryptTail then (.error .smallerThanDecrypted, o, buffer)
  else
    let raw := buffer.drop o.decryptTail
    let buffer := buffer.take o.decryptTail ++ xorStream keystream o.position raw
    let o := { o with position := o.position + raw.length, decryptTail := buffer.length }
    match o.inner.unpack crc32 buffer with
    | (.error e, inner) => (.error (.fault e), { o with inner := inner }, buffer)
    | (.ok offset, inner) =>
      match sub o.decryptTail offset.nextOffset with
      | .error e => (.error (.fault e), { o with inner := inner }, buffer)
      | .ok decryptTail => (.ok offset, { o with inner := inner, decryptTail := decryptTail }, buffer)

/-- A transport of a connection, with or without obfuscation. -/
inductive Conn where
  | plain (t : Transport)
  | obfuscated (o : Obfuscated)
  deriving DecidableEq

def Conn.unpack (crc32 : Bytes → UInt32) (keystream : Nat → UInt8) :
    Conn → Bytes → Except UnpackFault UnpackedOffset × Conn × Bytes
  | .plain t, buffer =>
    let (result, t) := t.unpack crc32 buffer
    (result.mapError .fault, .plain t, buffer)
  | .obfuscated o, buffer =>
    let (result, o, buffer) := o.unpack crc32 keystream buffer
    (result, .obfuscated o, buffer)

def maximumData : Nat := 1024 * 1024 + 8 * 1024

def initialReadBufferSize : Nat := 1024

def retainedBufferSize : Nat := 16 * 1024

def busyReadBufferSize : Nat := retainedBufferSize

def bufferReleaseDelay : Nat := 60

/-- What takes payloads, and decodes them in place. -/
structure Consumer (μ ε : Type) where
  deserialize : μ → Bytes → Except ε μ × Bytes
  inPlace : ∀ m p, (deserialize m p).2.length = p.length

inductive ReadFault (ε : Type) where
  | unpack (f : UnpackFault)
  | deserialize (e : ε)
  | receiveLimit
  | connectionReset
  | outOfRange
  deriving DecidableEq

/-- The receiving side of a sender. -/
structure Receive (μ : Type) where
  conn : Conn
  mtp : μ
  readBuffer : Bytes
  readTail : Nat
  lastLargeTransfer : Nat

variable {μ ε : Type}

/-- Copy bytes over those of a buffer. -/
def overwrite (buffer : Bytes) (start : Nat) (bytes : Bytes) : Bytes :=
  buffer.take start ++ (bytes ++ buffer.drop (start + bytes.length))

def resize (buffer : Bytes) (len : Nat) : Bytes :=
  buffer.take len ++ List.replicate (len - buffer.length) 0

namespace Receive

def new (conn : Conn) (mtp : μ) (now : Nat) : Receive μ where
  conn := conn
  mtp := mtp
  readBuffer := List.replicate initialReadBufferSize 0
  readTail := 0
  lastLargeTransfer := now

def prepareReadBuffer (s : Receive μ) : Except (ReadFault ε) (Receive μ) :=
  if s.readTail = s.readBuffer.length then
    if s.readTail ≥ maximumData then .error .receiveLimit
    else
      .ok { s with readBuffer := resize s.readBuffer (min (s.readBuffer.length * 2) maximumData) }
  else .ok s

def releaseIdleBuffers (s : Receive μ) (used : Nat) (filled : Bool) (now : Nat) : Receive μ :=
  if used > retainedBufferSize ∨ (filled = true ∧ s.readBuffer.length > initialReadBufferSize) then
    { s with lastLargeTransfer := now }
  else if now - s.lastLargeTransfer ≥ bufferReleaseDelay then
    if s.readTail = 0 ∧ s.readBuffer.length > initialReadBufferSize then
      { s with readBuffer := List.replicate initialReadBufferSize 0 }
    else s
  else s

variable (crc32 : Bytes → UInt32) (keystream : Nat → UInt8) (k : Consumer μ ε)

/-- Take packets from an offset of the buffer until one is missing bytes; the payloads are those
that were passed on. -/
def unpackLoop : Nat → Receive μ → Nat → List Bytes × Except (ReadFault ε) (Receive μ × Nat)
  | 0, _, _ => ([], .error .outOfRange)
  | fuel + 1, s, nextOffset =>
    if nextOffset = s.readTail then ([], .ok (s, nextOffset))
    else
      match slice (ε := ε) s.readBuffer nextOffset s.readTail with
      | .error _ => ([], .error .outOfRange)
      | .ok window =>
        let (result, conn, window) := s.conn.unpack crc32 keystream window
        let s := { s with conn := conn, readBuffer := overwrite s.readBuffer nextOffset window }
        match result with
        | .error (.fault (.error .missingBytes)) => ([], .ok (s, nextOffset))
        | .error f => ([], .error (.unpack f))
        | .ok offset =>
          match slice (ε := ε) s.readBuffer (nextOffset + offset.dataStart)
              (nextOffset + offset.dataEnd) with
          | .error _ => ([], .error .outOfRange)
          | .ok payload =>
            let (result, decoded) := k.deserialize s.mtp payload
            let s := { s with
              readBuffer := overwrite s.readBuffer (nextOffset + offset.dataStart) decoded }
            match result with
            | .error e => ([payload], .error (.deserialize e))
            | .ok mtp =>
              let (payloads, r) := unpackLoop fuel { s with mtp := mtp } (nextOffset + offset.nextOffset)
              (payload :: payloads, r)

/-- What is left of the buffer moves to its front. -/
def moveToFront (s : Receive μ) (nextOffset : Nat) : Receive μ :=
  { s with
    readBuffer := overwrite s.readBuffer 0 ((s.readBuffer.take s.readTail).drop nextOffset)
    readTail := s.readTail - nextOffset }

/-- After the packets of a read the buffer moves on, and grows or shrinks. -/
def compact (s : Receive μ) (nextOffset : Nat) (filled : Bool) (now : Nat) : Receive μ :=
  let used := s.readTail
  let s := s.moveToFront nextOffset
  if filled = true ∧ s.readBuffer.length < busyReadBufferSize then
    { s with
      lastLargeTransfer := now
      readBuffer := resize s.readBuffer (min (s.readBuffer.length * 2) busyReadBufferSize) }
  else s.releaseIdleBuffers used filled now

def onNetRead (s : Receive μ) (n now : Nat) : List Bytes × Except (ReadFault ε) (Receive μ) :=
  if n = 0 then ([], .error .connectionReset)
  else
    let filled := decide (s.readTail + n = s.readBuffer.length)
    let s := { s with readTail := s.readTail + n }
    match unpackLoop crc32 keystream k (s.readTail + 1) s 0 with
    | (payloads, .error f) => (payloads, .error f)
    | (payloads, .ok (s, nextOffset)) => (payloads, .ok (s.compact nextOffset filled now))

/-- What happens to the receiving side: bytes are read into it, or a packet has been written. -/
inductive Event where
  | read (bytes : Bytes) (now : Nat)
  | wrote (used now : Nat)

def Event.bytes : Event → Bytes
  | .read bytes _ => bytes
  | .wrote _ _ => []

def handle (s : Receive μ) : Event → List Bytes × Except (ReadFault ε) (Receive μ)
  | .wrote used now => ([], .ok (s.releaseIdleBuffers used false now))
  | .read bytes now =>
    match s.prepareReadBuffer with
    | .error f => ([], .error f)
    | .ok s =>
      onNetRead crc32 keystream k
        { s with readBuffer := overwrite s.readBuffer s.readTail bytes } bytes.length now

/-- A read is not empty, and fits the space that was prepared for it. -/
def Fits (s : Receive μ) : Event → Prop
  | .wrote _ _ => True
  | .read bytes _ => bytes ≠ [] ∧ ∀ s', s.prepareReadBuffer = (.ok s' : Except (ReadFault ε) _) →
    s'.readTail + bytes.length ≤ s'.readBuffer.length

/-- The payloads of a run, and how it ended. -/
def run : Receive μ → List Event → List Bytes × Except (ReadFault ε) (Receive μ)
  | s, [] => ([], .ok s)
  | s, e :: es =>
    match s.handle crc32 keystream k e with
    | (payloads, .error f) => (payloads, .error f)
    | (payloads, .ok s) =>
      let (more, r) := run s es
      (payloads ++ more, r)

def AllFit : Receive μ → List Event → Prop
  | _, [] => True
  | s, e :: es => Fits (ε := ε) s e ∧ ∀ payloads s', s.handle crc32 keystream k e = (payloads, .ok s') →
    AllFit s' es

end Receive

end Grammers
