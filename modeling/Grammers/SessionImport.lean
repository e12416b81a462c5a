import Grammers.Checked
import Grammers.NativeSession
import Grammers.Text

namespace Grammers

open Checked

inductive SessionFormat where
  | pyrogram
  | telethon
  | gotd
  deriving DecidableEq

inductive ImportError where
  | inputTooLarge
  | invalidEncoding
  | invalidLength
  | unsupportedVersion
  | invalidDc
  | invalidBoolean
  | invalidApiId
  | invalidUserId
  | invalidAuthKey
  | invalidAuthKeyId
  | invalidAddress
  | invalidJson
  | ipv6PreferenceRequired
  deriving DecidableEq

structure GotdData where
  dc : Int32
  addr : List Char
  authKey : List Char
  authKeyId : Option (List Char)
  testMode : Bool

structure GotdWrapper where
  version : Nat
  data : GotdData

/-- What the importers use: the decoders of text, of documents and of addresses, and a fingerprint
of 20 bytes. -/
structure ImportEnv where
  decodeUrlSafe : List Char → Option Bytes
  decodeStandard : List Char → Option Bytes
  fromJson : List Char → Option GotdWrapper
  parseAddr : List Char → Option SocketAddr
  sha1 : Bytes → { b : Bytes // b.length = 20 }

structure ImportedSession where
  data : SessionData
  format : SessionFormat
  apiId : Option Int32
  userId : Option Nat
  isBot : Option Bool
  testMode : Option Bool
  preferIpv6 : Bool

abbrev Import (α : Type) : Type := Except (Fault ImportError) α

def stringLimit : Nat := 512

def jsonLimit : Nat := 1024 * 1024

namespace Import

def checkSize (input : List Char) (limit : Nat) : Import Unit :=
  if utf8Len input > limit then .error (.error .inputTooLarge) else .ok ()

def readFixed (n : Nat) (input : Bytes) (offset : Nat) : Import { b : Bytes // b.length = n } :=
  if h : offset + n ≤ input.length then
    .ok ⟨(input.drop offset).take n, by rw [List.length_take, List.length_drop]; omega⟩
  else .error (.error .invalidLength)

def parseBoolean (value : UInt8) : Import Bool :=
  if value = 0 then .ok false else if value = 1 then .ok true else .error (.error .invalidBoolean)

def validateKey (bytes : Bytes) : Import DcKey :=
  if h : bytes.length = 256 then
    if bytes.all (· = 0) then .error (.error .invalidAuthKey) else .ok ⟨bytes, h⟩
  else .error (.error .invalidAuthKey)

def unmapIpv4 : IpAddr → IpAddr
  | .v6 ip =>
    match ip.toIpv4Mapped with
    | some ip => .v4 ip
    | none => .v6 ip
  | ip => ip

def usableIp : IpAddr → Bool
  | .v4 ip => !ip.isUnspecified && !ip.isMulticast && !ip.isBroadcast
  | .v6 ip => !ip.isUnspecified && !ip.isMulticast

def validateEndpoint (endpoint : SocketAddr) : Import SocketAddr :=
  if endpoint.port = 0 ∨ usableIp (unmapIpv4 endpoint.ip) = false then
    .error (.error .invalidAddress)
  else .ok endpoint

def testDcOptions : List DcOption := [
  .keyless 1 (.new 149 154 175 10) (.new 0x2001 0xb28 0xf23d 0xf001 0 0 0 0xe) 80,
  .keyless 2 (.new 149 154 167 40) (.new 0x2001 0x67c 0x4e8 0xf002 0 0 0 0xe) 80,
  .keyless 3 (.new 149 154 175 117) (.new 0x2001 0xb28 0xf23d 0xf003 0 0 0 0xe) 80]

def dc203 : DcOption :=
  .keyless 203 (.new 91 105 192 100) (.new 0x2a0a 0xf280 0x0203 0x000a 0x5000 0 0 0x0100) 443

def endpointEnvironment (ip : IpAddr) : Option Bool :=
  let ip := unmapIpv4 ip
  let matchesIp (option : DcOption) : Bool := ip = .v4 option.ipv4.ip || ip = .v6 option.ipv6.ip
  if testDcOptions.any matchesIp then some true
  else if knownDcOptions.any matchesIp || matchesIp dc203 then some false
  else none

def validDc (testMode : Option Bool) (dc : Int32) : Bool :=
  if testMode = some true then 1 ≤ dc ∧ dc ≤ 3 else 1 ≤ dc ∧ dc ≤ 5 ∨ dc = 203

def environmentOptions : Option Bool → HashMap Int32 DcOption
  | some true => DcOption.collect testDcOptions
  | some false => DcOption.collect knownDcOptions
  | none => ∅

/-- The addresses of an endpoint; the other family never selects another server. -/
def endpointOption (dc : Int32) : SocketAddr → DcOption
  | .v4 address => ⟨dc, address, ⟨address.ip.toIpv6Mapped, address.port, 0, 0⟩, none⟩
  | .v6 address => ⟨dc, ⟨Ipv4Addr.unspecified, address.port⟩, address, none⟩

def isV6 : Option SocketAddr → Bool
  | some (.v6 _) => true
  | _ => false

def fromParts (format : SessionFormat) (dc : Int32) (testMode : Option Bool)
    (endpoint : Option SocketAddr) (key : DcKey) : Import ImportedSession :=
  if validDc testMode dc = false then .error (.error .invalidDc)
  else
    let dcOptions := match endpoint with
      | some endpoint => (environmentOptions testMode).insert dc (endpointOption dc endpoint)
      | none =>
        if dc = 203 then (environmentOptions testMode).insert dc dc203
        else environmentOptions testMode
    match dcOptions.lookup dc with
    | none => .error (.error .invalidDc)
    | some home => .ok {
      data := ⟨dc, dcOptions.insert dc { home with authKey := some key }, ∅, .default⟩
      format := format
      apiId := none
      userId := none
      isBot := none
      testMode := testMode
      preferIpv6 := isV6 endpoint }

/-- What is in front of the key of a string: an identifier, and where the rest stands. -/
def pyrogramLayout (bytes : Bytes) : Import (Option Int32 × Nat × Nat) :=
  if bytes.length = 271 then do
    let id := BigEndian.ofBytes (← readFixed 4 bytes 1).1
    if id > 2147483647 then .error (.error .invalidApiId)
    else .ok (if id ≠ 0 then some (Int32.ofNat id) else none, 5, 8)
  else if bytes.length = 263 then .ok (none, 1, 4)
  else if bytes.length = 267 then .ok (none, 1, 8)
  else .error (.error .invalidLength)

variable (env : ImportEnv)

def fromPyrogram (input : List Char) : Import ImportedSession := do
  checkSize input stringLimit
  let bytes ← require (env.decodeUrlSafe (trim input)) .invalidEncoding
  let (apiId, testOffset, userSize) ← pyrogramLayout bytes
  let dc := Int32.ofNat (← index bytes 0).toNat
  let testMode ← parseBoolean (← index bytes testOffset)
  let keyOffset := testOffset + 1
  let key ← validateKey (← slice bytes keyOffset (keyOffset + 256))
  let userOffset := keyOffset + 256
  let userId := BigEndian.ofBytes (← readFixed userSize bytes userOffset).1
  if userId = 0 then .error (.error .invalidUserId)
  else
    let isBot ← parseBoolean (← index bytes (userOffset + userSize))
    let imported ← fromParts .pyrogram dc (some testMode) none key
    .ok { imported with apiId := apiId, userId := some userId, isBot := some isBot }

def telethonIp (bytes : Bytes) : Import (IpAddr × Nat) := do
  if bytes.length = 263 then .ok (.v4 (← readFixed 4 bytes 1), 5)
  else if bytes.length = 275 then .ok (.v6 (← readFixed 16 bytes 1), 17)
  else .error (.error .invalidLength)

def socketAddr (port : UInt16) : IpAddr → SocketAddr
  | .v4 ip => .v4 ⟨ip, port⟩
  | .v6 ip => .v6 ⟨ip, port, 0, 0⟩

def fromTelethon (input : List Char) : Import ImportedSession := do
  checkSize input stringLimit
  let encoded ← require (stripPrefix ['1'] (trim input)) .unsupportedVersion
  let bytes ← require (env.decodeUrlSafe encoded) .invalidEncoding
  let (ip, portOffset) ← telethonIp bytes
  let port := UInt16.ofNat (BigEndian.ofBytes (← readFixed 2 bytes portOffset).1)
  let endpoint ← validateEndpoint (socketAddr port ip)
  let key ← validateKey (← slice bytes (portOffset + 2) bytes.length)
  let dc := Int32.ofNat (← index bytes 0).toNat
  fromParts .telethon dc (endpointEnvironment ip) (some endpoint) key

/-- The fingerprint of a key, where there is one to be compared. -/
def checkKeyId (key : DcKey) : Option (List Char) → Import Unit
  | none => .ok ()
  | some keyId =>
    if utf8Len keyId ≠ 12 then .error (.error .invalidAuthKeyId)
    else do
      let keyId ← require (env.decodeStandard keyId) .invalidAuthKeyId
      if keyId ≠ (← slice (env.sha1 key.1).1 12 20) then .error (.error .invalidAuthKeyId)
      else .ok ()

def fromGotdJson (input : List Char) : Import ImportedSession := do
  checkSize input jsonLimit
  let wrapper ← require (env.fromJson input) .invalidJson
  if wrapper.version ≠ 1 then .error (.error .unsupportedVersion)
  else
    let data := wrapper.data
    let endpoint ← validateEndpoint (← require (env.parseAddr data.addr) .invalidAddress)
    if (endpointEnvironment endpoint.ip).any (· ≠ data.testMode) then
      .error (.error .invalidAddress)
    else if utf8Len data.authKey ≠ 344 then .error (.error .invalidAuthKey)
    else
      let key ← validateKey (← require (env.decodeStandard data.authKey) .invalidAuthKey)
      checkKeyId env key data.authKeyId
      fromParts .gotd data.dc (some data.testMode) (some endpoint) key

def parse (input : List Char) : Import ImportedSession := do
  checkSize input jsonLimit
  match trimStart input with
  | '{' :: _ => fromGotdJson env input
  | '1' :: _ => fromTelethon env input
  | _ => fromPyrogram env input

/-- Apply an explicit preference, if there is one. -/
def applyOptions (preferIpv6 : Option Bool) (imported : ImportedSession) : Import ImportedSession :=
  match preferIpv6 with
  | none => .ok imported
  | some preferIpv6 =>
    if imported.preferIpv6 ∧ !preferIpv6 then .error (.error .ipv6PreferenceRequired)
    else .ok { imported with preferIpv6 := preferIpv6 }

inductive Importer where
  | pyrogram
  | telethon
  | gotd
  | detect

/-- An importer, with the options it is given. -/
def run (importer : Importer) (preferIpv6 : Option Bool) (input : List Char) :
    Import ImportedSession := do
  let imported ← match importer with
    | .pyrogram => fromPyrogram env input
    | .telethon => fromTelethon env input
    | .gotd => fromGotdJson env input
    | .detect => parse env input
  applyOptions preferIpv6 imported

end Import

end Grammers
