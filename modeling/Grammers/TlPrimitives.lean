import Grammers.CursorReader
import Grammers.Transport

namespace Grammers.Tl

open Checked CursorReader

inductive TlError where
  | unexpectedEof
  | depthLimitExceeded
  | unexpectedConstructor (id : UInt32)
  deriving DecidableEq

/-- A reader of the wire format; its cursor carries how deep boxed values are nested. -/
abbrev Read (α : Type) : Type := Reader Nat (Fault TlError) α

def eof : Fault TlError := .error .unexpectedEof

def fromSlice (buf : Bytes) : Cursor Nat where
  buf := buf
  pos := 0
  carried := 0

/-- An access of the standard library, which may panic. -/
def lift {α : Type} (x : Except (Fault TlError) α) : Read α := fun c =>
  match x with
  | .ok v => .ok v c
  | .error e => .error e c

def readByte : Read UInt8 := fun c =>
  if c.pos < c.buf.length then
    match index c.buf c.pos with
    | .ok byte => .ok byte { c with pos := c.pos + 1 }
    | .error e => .error e c
  else .error eof c

def readSlice (len : Nat) : Read Bytes := fun c =>
  if c.pos + len ≤ c.buf.length then
    match slice c.buf c.pos (c.pos + len) with
    | .ok result => .ok result { c with pos := c.pos + len }
    | .error e => .error e c
  else .error eof c

/-- Fill a buffer of a fixed length. -/
def readExact (len : Nat) : Read Bytes := fun c =>
  if c.pos + len > c.buf.length then .error eof c
  else
    match slice c.buf c.pos (c.pos + len) with
    | .ok result => .ok result { c with pos := c.pos + len }
    | .error e => .error e c

def readToEnd : Read Bytes := fun c =>
  match slice c.buf c.pos c.buf.length with
  | .ok result => .ok result { c with pos := c.buf.length }
  | .error e => .error e c

/-- The length of a byte string and how far its header and content go over a word. -/
def readLength : Read (Nat × Nat) := do
  let first ← readByte
  if first = 254 then
    let bytes ← readSlice 3
    let low ← lift (index bytes 0)
    let middle ← lift (index bytes 1)
    let high ← lift (index bytes 2)
    let len := low.toNat ||| (middle.toNat <<< 8) ||| (high.toNat <<< 16)
    pure (len, len % 4)
  else pure (first.toNat, (first.toNat + 1) % 4)

def readBytes : Read Bytes := do
  let (len, padding) ← readLength
  let result ← readSlice len
  if padding ≠ 0 then
    let _ ← readSlice (4 - padding)
    pure result
  else pure result

def serializeU32 (x : UInt32) : Bytes := LittleEndian.toBytes 4 x.toNat

def serializeI32 (x : Int32) : Bytes := LittleEndian.toBytes 4 x.toUInt32.toNat

def serializeI64 (x : Int64) : Bytes := LittleEndian.toBytes 8 x.toUInt64.toNat

/-- A floating point number is written as its bits. -/
def serializeF64 (bits : UInt64) : Bytes := LittleEndian.toBytes 8 bits.toNat

def serializeBool (b : Bool) : Bytes := serializeU32 (if b then 0x997275b5 else 0xbc799737)

def bytesHeader (len : Nat) : Bytes :=
  if len ≤ 253 then [UInt8.ofNat len]
  else [254, UInt8.ofNat (len &&& 0xff), UInt8.ofNat ((len >>> 8) &&& 0xff),
    UInt8.ofNat ((len >>> 16) &&& 0xff)]

def serializeBytes (b : Bytes) : Bytes :=
  let len := if b.length ≤ 253 then b.length + 1 else b.length
  let padding := (4 - len % 4) % 4
  bytesHeader b.length ++ (b ++ List.replicate padding 0)

def asBytes (s : String) : Bytes := s.toByteArray.data.toList

def serializeRawVec {α : Type} (serialize : α → Bytes) (vs : List α) : Bytes :=
  serializeI32 (Int32.ofNat vs.length) ++ vs.flatMap serialize

def serializeVec {α : Type} (serialize : α → Bytes) (vs : List α) : Bytes :=
  serializeU32 0x1cb5c415 ++ serializeRawVec serialize vs

def deserializeU32 : Read UInt32 := do
  let buffer ← readExact 4
  pure (UInt32.ofNat (LittleEndian.ofBytes buffer))

def deserializeI32 : Read Int32 := do
  let buffer ← readExact 4
  pure (Int32.ofNat (LittleEndian.ofBytes buffer))

def deserializeI64 : Read Int64 := do
  let buffer ← readExact 8
  pure (Int64.ofNat (LittleEndian.ofBytes buffer))

def deserializeF64 : Read UInt64 := do
  let buffer ← readExact 8
  pure (UInt64.ofNat (LittleEndian.ofBytes buffer))

def deserializeBool : Read Bool := do
  let id ← deserializeU32
  if id = 0x997275b5 then pure true
  else if id = 0xbc799737 then pure false
  else throw (.error (.unexpectedConstructor id))

def deserializeVector {α : Type} (deserialize : Read α) : Read (List α) := do
  let len ← deserializeU32
  if len = 0 then pure []
  else
    let first ← deserialize
    let values ← readMany deserialize (len.toNat - 1)
    pure (first :: values)

def deserializeVec {α : Type} (deserialize : Read α) : Read (List α) := do
  let id ← deserializeU32
  if id ≠ 0x1cb5c415 then throw (.error (.unexpectedConstructor id))
  else deserializeVector deserialize

/-- How much of a sequence that is no character is replaced at once. -/
def invalidLength : Bytes → Nat
  | [] => 0
  | [_] => 1
  | first :: second :: rest =>
    let continues (byte : UInt8) : Bool := byte &&& 192 == 128
    let third := rest.headD 0
    if (first = 0xe0 ∧ 0xa0 ≤ second ∧ second ≤ 0xbf) ∨
        (0xe1 ≤ first ∧ first ≤ 0xec ∧ 0x80 ≤ second ∧ second ≤ 0xbf) ∨
        (first = 0xed ∧ 0x80 ≤ second ∧ second ≤ 0x9f) ∨
        (0xee ≤ first ∧ first ≤ 0xef ∧ 0x80 ≤ second ∧ second ≤ 0xbf) then 2
    else if (first = 0xf0 ∧ 0x90 ≤ second ∧ second ≤ 0xbf) ∨
        (0xf1 ≤ first ∧ first ≤ 0xf3 ∧ 0x80 ≤ second ∧ second ≤ 0xbf) ∨
        (first = 0xf4 ∧ 0x80 ≤ second ∧ second ≤ 0x8f) then
      if continues third then 3 else 2
    else 1

def lossyChars : Nat → Bytes → List Char
  | 0, _ => []
  | _ + 1, [] => []
  | fuel + 1, b =>
    match b.toByteArray.utf8DecodeChar? 0 with
    | some c => c :: lossyChars fuel (b.drop c.utf8Size)
    | none => Char.ofNat 0xfffd :: lossyChars fuel (b.drop (invalidLength b))

def fromUtf8Lossy (b : Bytes) : String := String.ofList (lossyChars b.length b)

/-- A copy of what is borrowed from the buffer. -/
def deserializeBytes : Read Bytes := do
  let bytes ← readBytes
  pure bytes

def deserializeString : Read String := do
  let bytes ← readBytes
  pure (fromUtf8Lossy bytes)

end Grammers.Tl
