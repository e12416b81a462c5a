import Grammers.ReceiveCut

namespace Grammers

def tlsRecordMax : Nat := 16 * 1024

def tlsIncomingMax : Nat := 65535

def tlsCcs : Bytes := [0x14, 0x03, 0x03, 0, 1, 1]

namespace FakeTlsStream

inductive TlsError where
  | inner (code : Nat)
  | writeZero
  | headerEndedEarly
  | bodyEndedEarly
  | invalidApplicationRecord
  deriving DecidableEq

inductive Poll (α : Type) where
  | pending
  | ready (result : Except TlsError α)
  deriving DecidableEq

/-- What the stream below answers to a poll. -/
inductive Answer where
  | pending
  | failed (code : Nat)
  | ready (count : Nat)
  deriving DecidableEq

/-- A stream below that takes what it likes of the bytes offered to it. -/
structure Sink where
  answer : Nat → Bytes → Answer
  bounded : ∀ {poll offered count}, answer poll offered = .ready count → count ≤ offered.length

/-- A stream below that gives its bytes in pieces of any size; an empty piece is its end. -/
structure Source where
  stream : Bytes
  answer : Nat → Nat → Answer
  bounded : ∀ {poll capacity count}, answer poll capacity = .ready count → count ≤ capacity

end FakeTlsStream

/-- The stream, with what the one below has been given and has given. -/
structure FakeTlsStream where
  rxHeader : Bytes
  rxAt : Nat
  rxLeft : Nat
  txHeader : Bytes
  txAt : Nat
  txLen : Nat
  txLeft : Nat
  first : Bool
  writes : Nat
  written : Bytes
  reads : Nat
  taken : Nat

/-- The header of a record that announces so many bytes. -/
def applicationHeader (size : Nat) : Bytes := [0x17, 3, 3] ++ BigEndian.toBytes 2 size

namespace FakeTlsStream

def new : FakeTlsStream where
  rxHeader := List.replicate 5 0
  rxAt := 0
  rxLeft := 0
  txHeader := List.replicate 11 0
  txAt := 0
  txLen := 0
  txLeft := 0
  first := true
  writes := 0
  written := []
  reads := 0
  taken := 0

/-- Announce a record for the bytes that are to be written. -/
def startRecord (s : FakeTlsStream) (bytes : Bytes) : FakeTlsStream :=
  let left := min bytes.length tlsRecordMax
  let header := if s.first then overwrite s.txHeader 0 tlsCcs else s.txHeader
  let start := if s.first then 6 else 0
  let header := overwrite header start [0x17, 3, 3]
  let header := overwrite header (start + 3) (BigEndian.toBytes 2 left)
  { s with
    txLeft := left
    txAt := 0
    first := false
    txLen := start + 5
    txHeader := header }

/-- What is left of the header to write. -/
def unsent (s : FakeTlsStream) : Bytes := (s.txHeader.drop s.txAt).take (s.txLen - s.txAt)

/-- Write the header; there are never more rounds than it has bytes. -/
def writeHeader (sink : Sink) : Nat → FakeTlsStream → Option (Poll Nat) × FakeTlsStream
  | 0, s => (none, s)
  | fuel + 1, s =>
    if s.txAt < s.txLen then
      match sink.answer s.writes s.unsent with
      | .pending => (some .pending, { s with writes := s.writes + 1 })
      | .failed e => (some (.ready (.error (.inner e))), { s with writes := s.writes + 1 })
      | .ready 0 => (some (.ready (.error .writeZero)), { s with writes := s.writes + 1 })
      | .ready (n + 1) =>
        writeHeader sink fuel { s with
          writes := s.writes + 1
          written := s.written ++ s.unsent.take (n + 1)
          txAt := s.txAt + (n + 1) }
    else (none, s)

def writeBody (sink : Sink) (s : FakeTlsStream) (bytes : Bytes) : Poll Nat × FakeTlsStream :=
  let offered := bytes.take (min bytes.length s.txLeft)
  match sink.answer s.writes offered with
  | .pending => (.pending, { s with writes := s.writes + 1 })
  | .failed e => (.ready (.error (.inner e)), { s with writes := s.writes + 1 })
  | .ready 0 => (.ready (.error .writeZero), { s with writes := s.writes + 1 })
  | .ready (n + 1) => (.ready (.ok (n + 1)), { s with
      writes := s.writes + 1
      written := s.written ++ offered.take (n + 1)
      txLeft := s.txLeft - (n + 1) })

def pollWrite (sink : Sink) (s : FakeTlsStream) (bytes : Bytes) : Poll Nat × FakeTlsStream :=
  if bytes = [] then (.ready (.ok 0), s)
  else
    let s := if s.txLeft = 0 then s.startRecord bytes else s
    match s.writeHeader sink s.txLen with
    | (some result, s) => (result, s)
    | (none, s) => s.writeBody sink bytes

/-- The bytes that a piece of the stream below holds. -/
def piece (source : Source) (s : FakeTlsStream) (count : Nat) : Bytes :=
  (source.stream.drop s.taken).take count

/-- Read the header; each round reads some of it. -/
def readHeader (source : Source) : Nat → FakeTlsStream → Option (Poll Bytes) × FakeTlsStream
  | 0, s => (none, s)
  | fuel + 1, s =>
    if s.rxAt < 5 then
      match source.answer s.reads (5 - s.rxAt) with
      | .pending => (some .pending, { s with reads := s.reads + 1 })
      | .failed e => (some (.ready (.error (.inner e))), { s with reads := s.reads + 1 })
      | .ready count =>
        let read := s.piece source count
        let s := { s with reads := s.reads + 1, taken := s.taken + read.length }
        if read = [] then
          (some (.ready (if s.rxAt = 0 then .ok [] else .error .headerEndedEarly)), s)
        else
          readHeader source fuel { s with
            rxHeader := overwrite s.rxHeader s.rxAt read
            rxAt := s.rxAt + read.length }
    else (none, s)

def validHeader (header : Bytes) : Bool :=
  header.take 3 = [0x17, 3, 3] ∧ 1 ≤ BigEndian.ofBytes (header.drop 3) ∧
    BigEndian.ofBytes (header.drop 3) ≤ tlsIncomingMax

def readBody (source : Source) (s : FakeTlsStream) (capacity : Nat) : Poll Bytes × FakeTlsStream :=
  match source.answer s.reads (min capacity s.rxLeft) with
  | .pending => (.pending, { s with reads := s.reads + 1 })
  | .failed e => (.ready (.error (.inner e)), { s with reads := s.reads + 1 })
  | .ready count =>
    let read := s.piece source count
    let s := { s with reads := s.reads + 1, taken := s.taken + read.length }
    if read = [] then (.ready (.error .bodyEndedEarly), s)
    else (.ready (.ok read), { s with rxLeft := s.rxLeft - read.length })

def pollRead (source : Source) (s : FakeTlsStream) (capacity : Nat) : Poll Bytes × FakeTlsStream :=
  if capacity = 0 then (.ready (.ok []), s)
  else if s.rxLeft = 0 then
    match s.readHeader source 5 with
    | (some result, s) => (result, s)
    | (none, s) =>
      if validHeader s.rxHeader then
        { s with rxLeft := BigEndian.ofBytes (s.rxHeader.drop 3), rxAt := 0 }.readBody source capacity
      else (.ready (.error .invalidApplicationRecord), s)
  else s.readBody source capacity

end FakeTlsStream

end Grammers
