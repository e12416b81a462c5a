import Grammers.BigEndian
import Grammers.Transport

namespace Grammers

open Checked

namespace TwoFactorAuth

/-- What the key derivation is made of: a hash, and a hash that is slow, of a password and a salt. -/
structure Kdf where
  sha256 : Bytes → Digest
  pbkdf2 : Bytes → Bytes → { b : Bytes // b.length = 64 }

abbrev Padded : Type := { b : Bytes // b.length = 256 }

variable {ε : Type}

def padTo256 (data : Bytes) : Except (Fault ε) Padded :=
  if h : data.length ≤ 256 then
    .ok ⟨List.replicate (256 - data.length) 0 ++ data, by
      rw [List.length_append, List.length_replicate]
      omega⟩
  else .error .panic

/-- There is no power modulo zero. -/
def modpow (base exponent modulus : Nat) : Except (Fault ε) Nat :=
  if modulus = 0 then .error .panic else .ok (base ^ exponent % modulus)

def rem (n modulus : Nat) : Except (Fault ε) Nat :=
  if modulus = 0 then .error .panic else .ok (n % modulus)

/-- A remainder that is not negative. -/
def remEuclid (n : Int) (modulus : Nat) : Except (Fault ε) Nat :=
  if modulus = 0 then .error .panic else .ok (n % modulus).toNat

def xor (left right : Digest) : Digest :=
  ⟨List.zipWith (· ^^^ ·) left.1 right.1, by simp [left.2, right.2]⟩

variable (kdf : Kdf)

def sh (data salt : Bytes) : Digest := kdf.sha256 (salt ++ data ++ salt)

def ph1 (password salt1 salt2 : Bytes) : Digest := sh kdf (sh kdf password salt1).1 salt2

def ph2 (password salt1 salt2 : Bytes) : Digest :=
  let hash1 := ph1 kdf password salt1 salt2
  let dk := kdf.pbkdf2 hash1.1 salt1
  sh kdf dk.1 salt2

/-- The proof that a password is known, and the public value of the client. -/
def calculate2fa (salt1 salt2 p : Bytes) (g : Int32) (gB a password : Bytes) :
    Except (Fault ε) (Digest × Padded) := do
  let bigP := BigEndian.ofBytes p
  let gB ← padTo256 gB
  let a ← padTo256 a
  let gForHash ← padTo256 [g.toUInt32.toUInt8]
  let bigGB := BigEndian.ofBytes gB.1
  let bigG := g.toUInt32.toNat
  let bigA := BigEndian.ofBytes a.1
  let k := kdf.sha256 (p ++ gForHash.1)
  let bigK := BigEndian.ofBytes k.1
  let gA ← modpow bigG bigA bigP
  let gA ← padTo256 (BigEndian.toBytesBe gA)
  let u := kdf.sha256 (gA.1 ++ gB.1)
  let u := BigEndian.ofBytes u.1
  let x := ph2 kdf password salt1 salt2
  let x := BigEndian.ofBytes x.1
  let bigV ← modpow bigG x bigP
  let kV ← rem (bigK * bigV) bigP
  let bigT ← remEuclid (bigGB - kV) bigP
  let first := u * x
  let second := bigA + first
  let bigSA ← modpow bigT second bigP
  let padded ← padTo256 (BigEndian.toBytesBe bigSA)
  let kA := kdf.sha256 padded.1
  let hP := kdf.sha256 p
  let hG := kdf.sha256 gForHash.1
  let pXorG := xor hP hG
  let m1 := kdf.sha256 (pXorG.1 ++ (kdf.sha256 salt1).1 ++ (kdf.sha256 salt2).1 ++ gA.1 ++ gB.1 ++
    kA.1)
  .ok (m1, gA)

def telegramDhPrime : Bytes :=
  [0xc7, 0x1c, 0xae, 0xb9, 0xc6, 0xb1, 0xc9, 0x04, 0x8e, 0x6c, 0x52, 0x2f, 0x70, 0xf1, 0x3f, 0x73,
    0x98, 0x0d, 0x40, 0x23, 0x8e, 0x3e, 0x21, 0xc1, 0x49, 0x34, 0xd0, 0x37, 0x56, 0x3d, 0x93, 0x0f,
    0x48, 0x19, 0x8a, 0x0a, 0xa7, 0xc1, 0x40, 0x58, 0x22, 0x94, 0x93, 0xd2, 0x25, 0x30, 0xf4, 0xdb,
    0xfa, 0x33, 0x6f, 0x6e, 0x0a, 0xc9, 0x25, 0x13, 0x95, 0x43, 0xae, 0xd4, 0x4c, 0xce, 0x7c, 0x37,
    0x20, 0xfd, 0x51, 0xf6, 0x94, 0x58, 0x70, 0x5a, 0xc6, 0x8c, 0xd4, 0xfe, 0x6b, 0x6b, 0x13, 0xab,
    0xdc, 0x97, 0x46, 0x51, 0x29, 0x69, 0x32, 0x84, 0x54, 0xf1, 0x8f, 0xaf, 0x8c, 0x59, 0x5f, 0x64,
    0x24, 0x77, 0xfe, 0x96, 0xbb, 0x2a, 0x94, 0x1d, 0x5b, 0xcd, 0x1d, 0x4a, 0xc8, 0xcc, 0x49, 0x88,
    0x07, 0x08, 0xfa, 0x9b, 0x37, 0x8e, 0x3c, 0x4f, 0x3a, 0x90, 0x60, 0xbe, 0xe6, 0x7c, 0xf9, 0xa4,
    0xa4, 0xa6, 0x95, 0x81, 0x10, 0x51, 0x90, 0x7e, 0x16, 0x27, 0x53, 0xb5, 0x6b, 0x0f, 0x6b, 0x41,
    0x0d, 0xba, 0x74, 0xd8, 0xa8, 0x4b, 0x2a, 0x14, 0xb3, 0x14, 0x4e, 0x0e, 0xf1, 0x28, 0x47, 0x54,
    0xfd, 0x17, 0xed, 0x95, 0x0d, 0x59, 0x65, 0xb4, 0xb9, 0xdd, 0x46, 0x58, 0x2d, 0xb1, 0x17, 0x8d,
    0x16, 0x9c, 0x6b, 0xc4, 0x65, 0xb0, 0xd6, 0xff, 0x9c, 0xa3, 0x92, 0x8f, 0xef, 0x5b, 0x9a, 0xe4,
    0xe4, 0x18, 0xfc, 0x15, 0xe8, 0x3e, 0xbe, 0xa0, 0xf8, 0x7f, 0xa9, 0xff, 0x5e, 0xed, 0x70, 0x05,
    0x0d, 0xed, 0x28, 0x49, 0xf4, 0x7b, 0xf9, 0x59, 0xd9, 0x56, 0x85, 0x0c, 0xe9, 0x29, 0x85, 0x1f,
    0x0d, 0x81, 0x15, 0xf6, 0x35, 0xb1, 0x05, 0xee, 0x2e, 0x4e, 0x15, 0xd0, 0x4b, 0x24, 0x54, 0xbf,
    0x6f, 0x4f, 0xad, 0xf0, 0x34, 0xb1, 0x04, 0x03, 0x11, 0x9c, 0xd8, 0xe3, 0xb9, 0x2f, 0xcc, 0x5b]

/-- Whether a generator is in the subgroup of prime order, by the remainder of the prime number. -/
def validSubgroup (p : Nat) (g : Int32) : Bool :=
  if g = 2 then p % 8 = 7
  else if g = 3 then p % 3 = 2
  else if g = 4 then true
  else if g = 5 then p % 5 = 1 ∨ p % 5 = 4
  else if g = 6 then p % 24 = 19 ∨ p % 24 = 23
  else if g = 7 then p % 7 = 3 ∨ p % 7 = 5 ∨ p % 7 = 6
  else false

variable (safePrimeCheck : Nat → Option Bool)

/-- The check that a number is a safe prime needs randomness, and may not get it. -/
def checkPPrimeAndSubgroup (p : Bytes) (g : Int32) : Bool :=
  let knownPrime := p = telegramDhPrime
  let p := BigEndian.ofBytes p
  validSubgroup p g && (knownPrime || (safePrimeCheck p).getD false)

def checkPLen (p : Bytes) : Bool := p.length = 256

def checkPAndG (p : Bytes) (g : Int32) : Bool :=
  if !checkPLen p || p.headD 0 &&& 0x80 == 0 || !(2 ≤ g ∧ g ≤ 7 : Bool) then false
  else checkPPrimeAndSubgroup safePrimeCheck p g

inductive ErrorKind where
  | invalidData
  | unsupported
  deriving DecidableEq

structure IoError where
  kind : ErrorKind
  message : String
  deriving DecidableEq

def invalidPasswordState : IoError :=
  ⟨.invalidData, "missing or invalid SRP password parameters; request fresh password information"⟩

inductive PasswordKdfAlgo where
  | unknown
  | modPow (salt1 salt2 p : Bytes) (g : Int32)

/-- What the server tells of the password of an account. -/
structure Password where
  hasPassword : Bool
  currentAlgo : Option PasswordKdfAlgo
  srpB : Option Bytes
  srpId : Option Int64
  secureRandom : Bytes

structure PasswordParameters where
  salt1 : Bytes
  salt2 : Bytes
  p : Bytes
  g : Int32

def extractPasswordParameters : PasswordKdfAlgo → Except (Fault ε) PasswordParameters
  | .unknown => .error .panic
  | .modPow salt1 salt2 p g => .ok ⟨salt1, salt2, p, g⟩

def passwordParameters (password : Password) : Except (Fault IoError) PasswordParameters := do
  let algo ← require password.currentAlgo invalidPasswordState
  if algo matches .unknown then
    .error (.error ⟨.unsupported, "unsupported password algorithm; update the client"⟩)
  else
    let params ← extractPasswordParameters algo
    let b ← require password.srpB invalidPasswordState
    if !password.hasPassword || password.srpId.isNone || !(2 ≤ params.g ∧ params.g ≤ 7 : Bool) ||
        !(248 ≤ b.length ∧ b.length ≤ 256 : Bool) || b.all (· == 0) ||
        password.secureRandom.isEmpty || password.secureRandom.length > 256 ||
        password.secureRandom.all (· == 0) then
      .error (.error invalidPasswordState)
    else .ok params

structure CheckPassword where
  srpId : Int64
  a : Bytes
  m1 : Bytes

/-- Whether the value of the server is out of range, where that can be told. -/
def outOfRange (p b : Bytes) : Except (Fault ε) Bool :=
  if p.length = 256 then do
    let paddedB ← padTo256 b
    .ok (BigEndian.order p ≤ BigEndian.order paddedB.1)
  else .ok false

/-- There is no proof for a value of the server that is out of range, or for a prime number or a
generator that is not accepted. -/
def passwordProof (info : Password) (password : Bytes) :
    Except (Fault IoError) (Option CheckPassword) := do
  let params ← passwordParameters info
  let b ← require info.srpB invalidPasswordState
  let unusable ← outOfRange params.p b
  if unusable then .ok none
  else if !checkPAndG safePrimeCheck params.p params.g then .ok none
  else
    let (m1, gA) ← calculate2fa kdf params.salt1 params.salt2 params.p params.g b
      info.secureRandom password
    let srpId ← require info.srpId invalidPasswordState
    .ok (some ⟨srpId, gA.1, m1.1⟩)

end TwoFactorAuth

end Grammers
