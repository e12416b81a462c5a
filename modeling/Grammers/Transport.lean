import Grammers.Checked

namespace Grammers

open Checked

abbrev Bytes : Type := List UInt8

abbrev Digest : Type := { b : Bytes // b.length = 32 }

inductive TransportError where
  | missingBytes
  | badLen (got : Int32)
  | badSeq (expected got : Int32)
  | badCrc (expected got : UInt32)
  | badStatus (status : UInt32)
  deriving DecidableEq

structure UnpackedOffset where
  dataStart : Nat
  dataEnd : Nat
  nextOffset : Nat
  deriving DecidableEq

/-- The bytes of a 32-bit integer on the wire. -/
def leBytes (x : Int32) : Bytes := LittleEndian.toBytes 4 x.toUInt32.toNat

def readI32 (buffer : Bytes) (lo hi : Nat) : Except (Fault TransportError) Int32 :=
  (word 4 buffer lo hi).map Int32.ofNat

def readU32 (buffer : Bytes) (lo hi : Nat) : Except (Fault TransportError) UInt32 :=
  (word 4 buffer lo hi).map UInt32.ofNat

/-- A signed length as an index, extended with its sign. -/
def asUsize (x : Int32) : Nat := x.toInt64.toUInt64.toNat

def unsignedAbs (x : Int32) : UInt32 := UInt32.ofNat x.toInt.natAbs

/-- Addition that panics where it overflows, as it does in a checked build. -/
def checkedAdd (a b : Int32) : Except (Fault TransportError) Int32 :=
  if (a + b).toInt = a.toInt + b.toInt then .ok (a + b) else .error .panic

structure Full where
  sendSeq : Int32
  recvSeq : Int32
  deriving DecidableEq

structure Abridged where
  init : Bool
  deriving DecidableEq

structure Intermediate where
  init : Bool
  deriving DecidableEq

namespace Full

def new : Full where
  sendSeq := 0
  recvSeq := 0

variable (crc32 : Bytes → UInt32)

def pack (t : Full) (buffer : Bytes) : Except (Fault TransportError) (Bytes × Full) := do
  if buffer.length % 4 ≠ 0 then .error .panic
  else
    let len ← checkedAdd (Int32.ofNat buffer.length) 4
    let len ← checkedAdd len 4
    let len ← checkedAdd len 4
    let buffer := leBytes len ++ (leBytes t.sendSeq ++ buffer)
    let buffer := buffer ++ LittleEndian.toBytes 4 (crc32 buffer).toNat
    let sendSeq ← checkedAdd t.sendSeq 1
    .ok (buffer, { t with sendSeq := sendSeq })

/-- What is checked before the counter moves. -/
def read (t : Full) (buffer : Bytes) : Except (Fault TransportError) UnpackedOffset := do
  if buffer.length < 4 then .error (.error .missingBytes)
  else
    let totalLen := Int32.ofNat buffer.length
    let len ← readI32 buffer 0 4
    if len < 12 then
      if len < 0 then .error (.error (.badStatus (unsignedAbs len)))
      else .error (.error (.badLen len))
    else if totalLen < len then .error (.error .missingBytes)
    else
      let seq ← readI32 buffer 4 8
      if seq ≠ t.recvSeq then .error (.error (.badSeq t.recvSeq seq))
      else
        let len := asUsize len
        let crc ← readU32 buffer (← sub len 4) len
        let validCrc := crc32 (← slice buffer 0 (← sub len 4))
        if crc ≠ validCrc then .error (.error (.badCrc validCrc crc))
        else .ok ⟨8, ← sub len 4, len⟩

def unpack (t : Full) (buffer : Bytes) : Except (Fault TransportError) UnpackedOffset × Full :=
  match t.read crc32 buffer with
  | .error e => (.error e, t)
  | .ok offset =>
    match checkedAdd t.recvSeq 1 with
    | .error e => (.error e, t)
    | .ok recvSeq => (.ok offset, { t with recvSeq := recvSeq })

end Full

namespace Abridged

def new : Abridged where
  init := false

def tag : Bytes := [0xef]

def header (len : Nat) : Bytes :=
  if len < 127 then [UInt8.ofNat len]
  else LittleEndian.toBytes 4 ((0x7f : UInt32) ||| (UInt32.ofNat len <<< 8)).toNat

def pack (t : Abridged) (buffer : Bytes) : Except (Fault TransportError) (Bytes × Abridged) :=
  if buffer.length % 4 ≠ 0 then .error .panic
  else
    let buffer := header (buffer.length / 4) ++ buffer
    if t.init then .ok (buffer, t) else .ok (tag ++ buffer, { t with init := true })

/-- The length of the header and the number of words after it. -/
def readHeader (buffer : Bytes) : Except (Fault TransportError) (Nat × Nat) := do
  if buffer.isEmpty then .error (.error .missingBytes)
  else
    let len ← index buffer 0
    if len < 127 then .ok (1, len.toNat)
    else if buffer.length < 4 then .error (.error .missingBytes)
    else
      let low ← index buffer 1
      let middle ← index buffer 2
      let high ← index buffer 3
      .ok (4, LittleEndian.ofBytes [low, middle, high, 0])

def read (buffer : Bytes) : Except (Fault TransportError) UnpackedOffset := do
  let (headerLen, words) ← readHeader buffer
  let len := words * 4
  if buffer.length < headerLen + len then .error (.error .missingBytes)
  else if headerLen = 1 ∧ len = 4 then
    let data ← readI32 buffer 1 5
    if data < 0 then .error (.error (.badStatus (unsignedAbs data)))
    else .ok ⟨headerLen, headerLen + len, headerLen + len⟩
  else .ok ⟨headerLen, headerLen + len, headerLen + len⟩

def unpack (t : Abridged) (buffer : Bytes) :
    Except (Fault TransportError) UnpackedOffset × Abridged :=
  (read buffer, t)

end Abridged

namespace Intermediate

def new : Intermediate where
  init := false

def tag : Bytes := [0xee, 0xee, 0xee, 0xee]

def pack (t : Intermediate) (buffer : Bytes) :
    Except (Fault TransportError) (Bytes × Intermediate) :=
  if buffer.length % 4 ≠ 0 then .error .panic
  else
    let buffer := leBytes (Int32.ofNat buffer.length) ++ buffer
    if t.init then .ok (buffer, t) else .ok (tag ++ buffer, { t with init := true })

def read (buffer : Bytes) : Except (Fault TransportError) UnpackedOffset := do
  if buffer.length < 4 then .error (.error .missingBytes)
  else
    let len ← readI32 buffer 0 4
    if len < 4 then .error (.error (.badLen len))
    else if buffer.length < 4 + asUsize len then .error (.error .missingBytes)
    else if len = 4 then
      let data ← readI32 buffer 4 8
      .error (.error (.badStatus (-data).toUInt32))
    else
      let len := asUsize len
      .ok ⟨4, 4 + len, 4 + len⟩

def unpack (t : Intermediate) (buffer : Bytes) :
    Except (Fault TransportError) UnpackedOffset × Intermediate :=
  (read buffer, t)

end Intermediate

/-- The transports that frame packets, each with its state. -/
inductive Transport where
  | full (t : Full)
  | abridged (t : Abridged)
  | intermediate (t : Intermediate)
  deriving DecidableEq

namespace Transport

variable (crc32 : Bytes → UInt32)

def pack : Transport → Bytes → Except (Fault TransportError) (Bytes × Transport)
  | .full t, buffer => (t.pack crc32 buffer).map (Prod.map id .full)
  | .abridged t, buffer => (t.pack buffer).map (Prod.map id .abridged)
  | .intermediate t, buffer => (t.pack buffer).map (Prod.map id .intermediate)

def unpack : Transport → Bytes → Except (Fault TransportError) UnpackedOffset × Transport
  | .full t, buffer => (t.unpack crc32 buffer).map id .full
  | .abridged t, buffer => (t.unpack buffer).map id .abridged
  | .intermediate t, buffer => (t.unpack buffer).map id .intermediate

/-- The tag sent once before the first frame. -/
def initTag : Transport → Bytes
  | .full _ => []
  | .abridged t => if t.init then [] else Abridged.tag
  | .intermediate t => if t.init then [] else Intermediate.tag

end Transport

end Grammers
