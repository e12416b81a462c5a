import Mathlib.Data.List.AList
import Grammers.BoxTypes
import Grammers.Transport

namespace Grammers

abbrev Ipv4Addr : Type := { octets : Bytes // octets.length = 4 }

abbrev Ipv6Addr : Type := { octets : Bytes // octets.length = 16 }

namespace Ipv4Addr

def new (a b c d : UInt8) : Ipv4Addr := ⟨[a, b, c, d], rfl⟩

def unspecified : Ipv4Addr := new 0 0 0 0

def isUnspecified (ip : Ipv4Addr) : Bool := ip = unspecified

def isMulticast (ip : Ipv4Addr) : Bool := 224 ≤ ip.1.headD 0 ∧ ip.1.headD 0 ≤ 239

def isBroadcast (ip : Ipv4Addr) : Bool := ip = new 255 255 255 255

/-- What the bytes of an IPv6 address start with that holds an IPv4 one. -/
def mappedPrefix : Bytes := List.replicate 10 0 ++ [0xff, 0xff]

def toIpv6Mapped (ip : Ipv4Addr) : Ipv6Addr :=
  ⟨mappedPrefix ++ ip.1, by rw [List.length_append, ip.2]; rfl⟩

end Ipv4Addr

namespace Ipv6Addr

/-- An address of eight segments. -/
def new (a b c d e f g h : UInt16) : Ipv6Addr :=
  ⟨[a, b, c, d, e, f, g, h].flatMap fun x => BigEndian.toBytes 2 x.toNat, by
    simp [BigEndian.length_toBytes]⟩

def isUnspecified (ip : Ipv6Addr) : Bool := ip.1 = List.replicate 16 0

def isMulticast (ip : Ipv6Addr) : Bool := ip.1.headD 0 = 0xff

def toIpv4Mapped (ip : Ipv6Addr) : Option Ipv4Addr :=
  if ip.1.take 12 = Ipv4Addr.mappedPrefix then
    some ⟨ip.1.drop 12, by rw [List.length_drop, ip.2]⟩
  else none

end Ipv6Addr

structure SocketAddrV4 where
  ip : Ipv4Addr
  port : UInt16
  deriving DecidableEq

structure SocketAddrV6 where
  ip : Ipv6Addr
  port : UInt16
  flowinfo : UInt32
  scopeId : UInt32
  deriving DecidableEq

inductive SocketAddr where
  | v4 (address : SocketAddrV4)
  | v6 (address : SocketAddrV6)
  deriving DecidableEq

inductive IpAddr where
  | v4 (ip : Ipv4Addr)
  | v6 (ip : Ipv6Addr)
  deriving DecidableEq

namespace SocketAddr

def ip : SocketAddr → IpAddr
  | .v4 address => .v4 address.ip
  | .v6 address => .v6 address.ip

def port : SocketAddr → UInt16
  | .v4 address => address.port
  | .v6 address => address.port

end SocketAddr

abbrev DcKey : Type := { key : Bytes // key.length = 256 }

structure DcOption where
  id : Int32
  ipv4 : SocketAddrV4
  ipv6 : SocketAddrV6
  authKey : Option DcKey
  deriving DecidableEq

def defaultDc : Int32 := 2

/-- An option without a key, with one port for both addresses. -/
def DcOption.keyless (id : Int32) (ipv4 : Ipv4Addr) (ipv6 : Ipv6Addr) (port : UInt16) : DcOption :=
  ⟨id, ⟨ipv4, port⟩, ⟨ipv6, port, 0, 0⟩, none⟩

def knownDcOptions : List DcOption := [
  .keyless 1 (.new 149 154 175 53) (.new 0x2001 0xb28 0xf23d 0xf001 0 0 0 0xa) 443,
  .keyless 2 (.new 149 154 167 41) (.new 0x2001 0x67c 0x4e8 0xf002 0 0 0 0xa) 443,
  .keyless 3 (.new 149 154 175 100) (.new 0x2001 0xb28 0xf23d 0xf003 0 0 0 0xa) 443,
  .keyless 4 (.new 149 154 167 92) (.new 0x2001 0x67c 0x4e8 0xf004 0 0 0 0xa) 443,
  .keyless 5 (.new 91 108 56 104) (.new 0x2001 0xb28 0xf23f 0xf005 0 0 0 0xa) 443]

structure PeerId where
  dialogId : Int
  deriving DecidableEq

inductive PeerKind where
  | user
  | chat
  | channel
  deriving DecidableEq

inductive ChannelKind where
  | broadcast
  | megagroup
  | gigagroup
  | community
  deriving DecidableEq

inductive PeerInfo where
  | user (id : Int) (auth : Option Int) (bot isSelf : Option Bool)
  | chat (id : Int)
  | channel (id : Int) (auth : Option Int) (kind : Option ChannelKind)
  deriving DecidableEq

abbrev HashMap (κ ρ : Type) : Type := AList fun _ : κ => ρ

def UpdatesState.default : UpdatesState := ⟨0, 0, 0, 0, []⟩

structure SessionData where
  homeDc : Int32
  dcOptions : HashMap Int32 DcOption
  peerInfos : HashMap PeerId PeerInfo
  updatesState : UpdatesState

/-- Options under their identifiers. -/
def DcOption.collect (options : List DcOption) : HashMap Int32 DcOption :=
  (options.map fun option => (⟨option.id, option⟩ : Sigma fun _ : Int32 => DcOption)).toAList

def SessionData.default : SessionData where
  homeDc := defaultDc
  dcOptions := DcOption.collect knownDcOptions
  peerInfos := ∅
  updatesState := .default

end Grammers
