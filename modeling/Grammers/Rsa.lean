import Mathlib.Data.List.Count
import Grammers.IgeMode

namespace Grammers

open Checked

namespace Rsa

/-- The functions that encryption is made of: a hash, and a permutation of blocks for each key. -/
structure Primitives where
  sha256 : Bytes → Digest
  aes256 : Bytes → Equiv.Perm Aes.Block

structure Key where
  n : Nat
  e : Nat

theorem count_set_lt {data : Bytes} {i : Nat} {b : UInt8} (h : data[i]? = some b) (hb : b + 1 = 0) :
    (data.set i (b + 1)).count 255 < data.count 255 := by
  obtain ⟨hi, rfl⟩ := List.getElem?_eq_some_iff.mp h
  have hones : data[i] = 255 := by
    have hlt := data[i].toNat_lt
    have hzero := congrArg UInt8.toNat hb
    rw [UInt8.toNat_add] at hzero
    change (data[i].toNat + 1) % 256 = 0 at hzero
    exact UInt8.toNat_inj.mp (show data[i].toNat = 255 by omega)
  have hpos : 0 < data.count 255 := List.count_pos_iff.mpr (hones ▸ List.getElem_mem hi)
  rw [hb, List.count_set hi, hones]
  exact Nat.sub_lt hpos Nat.one_pos

/-- From one byte on to those before it, and from the first to the last, until one is not full. -/
def incrementFrom {ε : Type} (data : Bytes) (i : Nat) : Except (Fault ε) Bytes :=
  match h : data[i]? with
  | none => .error .panic
  | some b =>
    let n := b + 1
    let overflow := n = 0
    if ho : overflow then
      incrementFrom (data.set i n) (if i = 0 then data.length - 1 else i - 1)
    else .ok (data.set i n)
termination_by data.count 255
decreasing_by exact count_set_lt h ho

def increment {ε : Type} (data : Bytes) : Except (Fault ε) Bytes := do
  let i ← sub data.length 1
  incrementFrom data i

def zeroIv : Aes.Iv := ⟨List.replicate 32 0, List.length_replicate⟩

variable (prim : Primitives) (endian : Aes.Endian)

def keyAesEncrypted (dataWithPadding tempKey : Bytes) : Except (Fault Unit) Bytes := do
  let dataPadReversed := dataWithPadding.reverse
  let dataWithHash := dataPadReversed ++ (prim.sha256 (tempKey ++ dataWithPadding)).1
  let aesEncrypted ← Aes.igeEncrypt (prim.aes256 tempKey) endian dataWithHash zeroIv
  let tempKeyXor := Ige.xor tempKey (prim.sha256 aesEncrypted).1
  .ok (tempKeyXor ++ aesEncrypted)

/-- Try one key after another; the number bounds how many, and there is no result when the loop has
not ended by then. -/
def retry (key : Key) (dataWithPadding : Bytes) : Nat → Bytes → Except (Fault Unit) (Option Bytes)
  | 0, _ => .ok none
  | more + 1, tempKey => do
    let encrypted ← keyAesEncrypted prim endian dataWithPadding tempKey
    if BigEndian.ofBytes encrypted ≥ key.n then do
      let tempKey ← increment tempKey
      retry key dataWithPadding more tempKey
    else .ok (some encrypted)

def modpow {ε : Type} (base exponent modulus : Nat) : Except (Fault ε) Nat :=
  if modulus = 0 then .error .panic else .ok (base ^ exponent % modulus)

/-- Put zeros in front. -/
def insertZeros (block : Bytes) : Bytes :=
  if block.length < 256 then insertZeros (0 :: block) else block
termination_by 256 - block.length

def encryptHashed (more : Nat) (data : Bytes) (key : Key) (random : { b : Bytes // b.length = 224 }) :
    Except (Fault Unit) (Option Bytes) :=
  if data.length ≤ 144 then do
    let padding ← slice random.1 0 (192 - data.length)
    let dataWithPadding := data ++ padding
    let tempKey ← slice random.1 192 (192 + 32)
    match ← retry prim endian key dataWithPadding more tempKey with
    | none => .ok none
    | some encrypted => do
      let payload := BigEndian.ofBytes encrypted
      let encrypted ← modpow payload key.e key.n
      .ok (some (insertZeros (BigEndian.toBytesBe encrypted)))
  else .error .panic

/-- What the holder of the private exponent reads: the key, the data with its padding and a hash. -/
def openBlock (d : Nat) (key : Key) (block : Bytes) : Except (Fault Unit) (Bytes × Bytes × Bytes) := do
  let payload := BigEndian.toBytes 256 (BigEndian.ofBytes block ^ d % key.n)
  let tempKeyXor := payload.take 32
  let aesEncrypted := payload.drop 32
  let tempKey := Ige.xor tempKeyXor (prim.sha256 aesEncrypted).1
  let dataWithHash ← Aes.igeDecrypt (prim.aes256 tempKey).symm endian aesEncrypted zeroIv
  .ok (tempKey, (dataWithHash.take 192).reverse, dataWithHash.drop 192)

end Rsa

end Grammers
