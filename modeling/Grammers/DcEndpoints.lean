import Grammers.StorageRuns
import Grammers.Text

namespace Grammers

namespace DcSetup

/-- A datacenter option as the server sends it. -/
structure TlDcOption where
  ipv6 : Bool
  mediaOnly : Bool
  tcpoOnly : Bool
  static : Bool
  id : Int32
  ipAddress : Text
  port : Int32
  deriving DecidableEq

/-- The readers of addresses of the standard library. -/
structure AddressParsers where
  ipv4 : Text → Option Ipv4Addr
  ipv6 : Text → Option Ipv6Addr

inductive SetupError where
  | invalidDc
  | connecting
  | session
  | invalidData (message : String)
  deriving DecidableEq

def invalidEndpoint : SetupError := .invalidData "invalid datacenter endpoint"

/-- The options of a config that are used. -/
def TlDcOption.selected (option : TlDcOption) : Bool :=
  !option.mediaOnly && !option.tcpoOnly && option.static

def TlDcOption.validIp (p : AddressParsers) (option : TlDcOption) : Bool :=
  if option.ipv6 then (p.ipv6 option.ipAddress).isSome else (p.ipv4 option.ipAddress).isSome

def validateDcEndpoint (p : AddressParsers) (option : TlDcOption) : Except SetupError Unit :=
  if !option.validIp p || !(decide (1 ≤ option.port) && decide (option.port ≤ 65535)) then
    .error invalidEndpoint
  else .ok ()

def validateDcOptions (p : AddressParsers) : List TlDcOption → Except SetupError Unit
  | [] => .ok ()
  | option :: rest => do
    validateDcEndpoint p option
    validateDcOptions p rest

def tryPort (port : Int32) : Except SetupError UInt16 :=
  if 0 ≤ port.toInt ∧ port.toInt < 2 ^ 16 then .ok (UInt16.ofNat port.toInt.toNat)
  else .error (.invalidData "invalid datacenter port")

def orInvalid {α : Type} (message : String) : Option α → Except SetupError α
  | some x => .ok x
  | none => .error (.invalidData message)

/-- The record of a datacenter with the endpoint of an option of the config. -/
def refresh (p : AddressParsers) (option : TlDcOption) (dcOption : DcOption) :
    Except SetupError DcOption :=
  if option.ipv6 then do
    let ip ← orInvalid "invalid datacenter IPv6 address" (p.ipv6 option.ipAddress)
    let port ← tryPort option.port
    .ok { dcOption with ipv6 := ⟨ip, port, 0, 0⟩ }
  else do
    let ip ← orInvalid "invalid datacenter IPv4 address" (p.ipv4 option.ipAddress)
    let port ← tryPort option.port
    .ok { dcOption with
      ipv4 := ⟨ip, port⟩
      ipv6 := if dcOption.ipv6.ip.isUnspecified then ⟨ip.toIpv6Mapped, port, 0, 0⟩
        else dcOption.ipv6 }

/-- The record of a datacenter of which the session has none. -/
def blank (id : Int32) : DcOption :=
  .keyless id .unspecified (.new 0 0 0 0 0 0 0 0) 0

/-- The options of a session: what it answers for a datacenter is a record of that datacenter. -/
structure DcOptions where
  dcOption : Int32 → Option DcOption
  filed : ∀ id option, dcOption id = some option → option.id = id

namespace DcOptions

def setDcOption (session : DcOptions) (option : DcOption) : DcOptions where
  dcOption id := if id = option.id then some option else session.dcOption id
  filed id other h := by
    split at h
    next hid =>
      cases h
      exact hid.symm
    next => exact session.filed id other h

def authKey (session : DcOptions) (dc : Int32) : Option DcKey :=
  (session.dcOption dc).bind DcOption.authKey

def endpoints (session : DcOptions) (dc : Int32) : Option (SocketAddrV4 × SocketAddrV6) :=
  (session.dcOption dc).map fun option => (option.ipv4, option.ipv6)

variable (session : DcOptions) (option : DcOption)

theorem dcOption_setDcOption (dc : Int32) : (session.setDcOption option).dcOption dc =
    if dc = option.id then some option else session.dcOption dc := rfl

theorem authKey_setDcOption (dc : Int32) : (session.setDcOption option).authKey dc =
    if dc = option.id then option.authKey else session.authKey dc := by
  rw [authKey, dcOption_setDcOption]
  split
  next => rfl
  next => rfl

theorem endpoints_setDcOption (dc : Int32) : (session.setDcOption option).endpoints dc =
    if dc = option.id then some (option.ipv4, option.ipv6) else session.endpoints dc := by
  rw [endpoints, dcOption_setDcOption]
  split
  next => rfl
  next => rfl

/-- The session in memory answers as the options do, also after one is set. -/
theorem memory_setDcOption {s : MemorySession} (h : ∀ dc, s.dcOption dc = session.dcOption dc)
    (dc : Int32) : (s.setDcOption option).dcOption dc = (session.setDcOption option).dcOption dc := by
  rw [MemorySession.dcOption_setDcOption, dcOption_setDcOption, h]
  simp only [eq_comm]

theorem sqlite_setDcOption {τ : Type} {text : AddressText τ} {s : SqliteSession τ}
    (h : ∀ dc, s.dcOption dc = session.dcOption dc) (dc : Int32) :
    (s.setDcOption text option).dcOption dc = (session.setDcOption option).dcOption dc := by
  rw [SqliteSession.dcOption_setDcOption, dcOption_setDcOption, h]
  simp only [eq_comm]

/-- No datacenter is forgotten. -/
theorem known_setDcOption {dc : Int32} (h : (session.dcOption dc).isSome = true) :
    ((session.setDcOption option).dcOption dc).isSome = true := by
  rw [dcOption_setDcOption]
  split
  next => rfl
  next => exact h

theorem authKey_getD_blank (dc : Int32) :
    ((session.dcOption dc).getD (blank dc)).authKey = session.authKey dc := by
  unfold authKey
  cases session.dcOption dc with
  | none => rfl
  | some option => rfl

theorem id_getD {dc : Int32} {other : DcOption} (h : other.id = dc) :
    ((session.dcOption dc).getD other).id = dc := by
  cases hread : session.dcOption dc with
  | none => exact h
  | some option => exact session.filed dc option hread

end DcOptions

variable {p : AddressParsers} {option : TlDcOption} {dcOption refreshed : DcOption}

/-- The option has an address that is read, and a port other than zero. -/
def TlDcOption.Valid (p : AddressParsers) (option : TlDcOption) : Prop :=
  option.validIp p = true ∧ 1 ≤ option.port ∧ option.port ≤ 65535

theorem validateDcEndpoint_cases (p : AddressParsers) (option : TlDcOption) :
    option.Valid p ∧ validateDcEndpoint p option = .ok () ∨
      ¬ option.Valid p ∧ validateDcEndpoint p option = .error invalidEndpoint := by
  unfold validateDcEndpoint TlDcOption.Valid
  by_cases hip : option.validIp p = true <;> by_cases hlo : 1 ≤ option.port <;>
    by_cases hhi : option.port ≤ 65535 <;> simp [hip, hlo, hhi]

theorem validateDcOptions_cases (p : AddressParsers) (options : List TlDcOption) :
    (∀ option ∈ options, option.Valid p) ∧ validateDcOptions p options = .ok () ∨
      (∃ option ∈ options, ¬ option.Valid p) ∧
        validateDcOptions p options = .error invalidEndpoint := by
  induction options with
  | nil => exact Or.inl ⟨nofun, rfl⟩
  | cons option rest ih =>
    unfold validateDcOptions
    rcases validateDcEndpoint_cases p option with ⟨hvalid, heq⟩ | ⟨hvalid, heq⟩
    · rw [heq]
      rcases ih with ⟨hall, hrest⟩ | ⟨⟨other, hmem, hother⟩, hrest⟩
      · exact Or.inl ⟨List.forall_mem_cons.mpr ⟨hvalid, hall⟩, hrest⟩
      · exact Or.inr ⟨⟨other, List.mem_cons_of_mem _ hmem, hother⟩, hrest⟩
    · rw [heq]
      exact Or.inr ⟨⟨option, List.mem_cons_self, hvalid⟩, rfl⟩

theorem tryPort_ok {port : Int32} (hlo : 1 ≤ port) (hhi : port ≤ 65535) :
    ∃ port', tryPort port = .ok port' := by
  have hlo' : (1 : Int) ≤ port.toInt := Int32.le_iff_toInt_le.mp hlo
  have hhi' : port.toInt ≤ 65535 := Int32.le_iff_toInt_le.mp hhi
  exact ⟨_, if_pos ⟨by omega, by omega⟩⟩

/-- What has been validated is read without an error. -/
theorem refresh_ok (h : option.Valid p) (dcOption : DcOption) :
    ∃ refreshed, refresh p option dcOption = .ok refreshed := by
  obtain ⟨hip, hlo, hhi⟩ := h
  obtain ⟨port, hport⟩ := tryPort_ok hlo hhi
  unfold TlDcOption.validIp at hip
  unfold refresh
  cases hv6 : option.ipv6 with
  | true =>
    rw [hv6, if_pos rfl] at hip
    obtain ⟨ip, hread⟩ := Option.isSome_iff_exists.mp hip
    rw [if_pos rfl, hread, hport]
    exact ⟨_, rfl⟩
  | false =>
    rw [hv6, if_neg Bool.false_ne_true] at hip
    obtain ⟨ip, hread⟩ := Option.isSome_iff_exists.mp hip
    rw [if_neg Bool.false_ne_true, hread, hport]
    exact ⟨_, rfl⟩

theorem refresh_keeps (h : refresh p option dcOption = .ok refreshed) :
    refreshed.id = dcOption.id ∧ refreshed.authKey = dcOption.authKey := by
  unfold refresh at h
  split at h
  next =>
    cases hip : orInvalid "invalid datacenter IPv6 address" (p.ipv6 option.ipAddress) with
    | error e => rw [hip] at h; cases h
    | ok ip =>
      cases hport : tryPort option.port with
      | error e => rw [hip, hport] at h; cases h
      | ok port =>
        rw [hip, hport] at h
        cases h
        exact ⟨rfl, rfl⟩
  next =>
    cases hip : orInvalid "invalid datacenter IPv4 address" (p.ipv4 option.ipAddress) with
    | error e => rw [hip] at h; cases h
    | ok ip =>
      cases hport : tryPort option.port with
      | error e => rw [hip, hport] at h; cases h
      | ok port =>
        rw [hip, hport] at h
        cases h
        exact ⟨rfl, rfl⟩

end DcSetup

end Grammers
