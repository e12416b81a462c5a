import Grammers.SessionImport

namespace Grammers

open Checked

/-! What a session reads of itself while its credentials are exported. -/

namespace MemorySession

def reads (s : MemorySession) : NativeSession.SessionReads Unit where
  homeDcId := .ok s.homeDcId
  dcOption dcId := .ok (s.dcOption dcId)

end MemorySession

namespace NativeSession

def intoSessionData (n : NativeSession) : SessionData where
  homeDc := n.dc.id
  dcOptions := (∅ : HashMap Int32 DcOption).insert n.dc.id n.dc
  peerInfos := ∅
  updatesState := .default

theorem id_pos (n : NativeSession) : ¬n.dc.id ≤ 0 := by
  intro hid
  have h := n.valid
  unfold check at h
  rw [if_pos hid] at h
  cases h

/-- A session that holds valid credentials under its home datacenter is exported. -/
theorem fromSession_ofData (n : NativeSession) {data : SessionData} (hhome : data.homeDc = n.dc.id)
    (hdc : data.dcOptions.lookup n.dc.id = some n.dc) :
    fromSession (MemorySession.ofData data).reads n.preferIpv6 = .ok n := by
  have hread : (MemorySession.ofData data).dcOption n.dc.id = some n.dc := by
    rw [MemorySession.dcOption_ofData, hdc]
  have hid : (MemorySession.ofData data).homeDcId = n.dc.id := hhome
  unfold fromSession MemorySession.reads
  simp only [hid, hread, if_neg n.id_pos, ne_eq, not_true_eq_false, if_false]
  exact n.validated_eq

theorem fromSession_intoSessionData (n : NativeSession) :
    fromSession (MemorySession.ofData n.intoSessionData).reads n.preferIpv6 = .ok n :=
  n.fromSession_ofData rfl (AList.lookup_insert _)

end NativeSession

/-- The home option can be exported with every preference that the import admits. -/
def ImportedSession.Usable (imported : ImportedSession) : Prop :=
  ∃ home, imported.data.dcOptions.lookup imported.data.homeDc = some home ∧
    home.id = imported.data.homeDc ∧
    ∀ preferIpv6, (imported.preferIpv6 = true → preferIpv6 = true) →
      NativeSession.check home preferIpv6 = .ok ()

namespace Import

theorem usable_fromPrefix (ip : Ipv6Addr) (h : ip.1.take 12 = Ipv4Addr.mappedPrefix) :
    ip.isUnspecified = false ∧ ip.isMulticast = false := by
  have hlast : ip.1[11]? = some 0xff := by
    rw [← List.getElem?_take_of_lt (show 11 < 12 by omega), h]
    rfl
  have hfirst : ip.1[0]? = some 0 := by
    rw [← List.getElem?_take_of_lt (show 0 < 12 by omega), h]
    rfl
  constructor
  · simp only [Ipv6Addr.isUnspecified, decide_eq_false_iff_not]
    intro hzero
    rw [hzero] at hlast
    exact absurd hlast (by decide)
  · simp [Ipv6Addr.isMulticast, List.headD_eq_head?_getD, List.head?_eq_getElem?, hfirst]

theorem usable_v6 {ip : Ipv6Addr} (h : usableIp (unmapIpv4 (.v6 ip)) = true) :
    ip.isUnspecified = false ∧ ip.isMulticast = false := by
  cases hmapped : ip.toIpv4Mapped with
  | some mapped =>
    unfold Ipv6Addr.toIpv4Mapped at hmapped
    split at hmapped
    next hprefix => exact usable_fromPrefix ip hprefix
    next => cases hmapped
  | none =>
    unfold unmapIpv4 at h
    simpa [usableIp, hmapped] using h

theorem usable_mapped (ip : Ipv4Addr) :
    ip.toIpv6Mapped.isUnspecified = false ∧ ip.toIpv6Mapped.isMulticast = false :=
  usable_fromPrefix _ (by simp [Ipv4Addr.toIpv6Mapped, Ipv4Addr.mappedPrefix])

/-- What is checked of an endpoint is enough for the option it becomes. -/
theorem endpointsValid_endpointOption {dc : Int32} {endpoint : SocketAddr} (hport : endpoint.port ≠ 0)
    (hip : usableIp (unmapIpv4 endpoint.ip) = true) {preferIpv6 : Bool}
    (hprefer : isV6 (some endpoint) = true → preferIpv6 = true) :
    NativeSession.endpointsValid (endpointOption dc endpoint).ipv4 (endpointOption dc endpoint).ipv6
      preferIpv6 = true := by
  cases endpoint with
  | v4 address =>
    obtain ⟨hunspecified, hmulticast⟩ := usable_mapped address.ip
    have hport : address.port ≠ 0 := hport
    have hip : usableIp (.v4 address.ip) = true := hip
    simp only [usableIp, Bool.and_eq_true, Bool.not_eq_true'] at hip
    simp [NativeSession.endpointsValid, endpointOption, hunspecified, hmulticast, hport, hip]
  | v6 address =>
    obtain ⟨hunspecified, hmulticast⟩ := usable_v6 hip
    have hport : address.port ≠ 0 := hport
    have hprefer : preferIpv6 = true := hprefer rfl
    have hzero : Ipv4Addr.unspecified.isUnspecified = true := by decide
    simp [NativeSession.endpointsValid, endpointOption, hunspecified, hmulticast, hport, hprefer,
      hzero]

end Import

theorem DcOption.of_lookup_collect {options : List DcOption} {dc : Int32} {home : DcOption}
    (h : (DcOption.collect options).lookup dc = some home) : home ∈ options ∧ home.id = dc := by
  unfold collect at h
  rw [AList.lookup_to_alist] at h
  have hmem := List.of_mem_dlookup h
  obtain ⟨option, hoption, heq⟩ := List.mem_map.mp hmem
  cases heq
  exact ⟨hoption, rfl⟩

namespace Import

theorem known_endpoints : ∀ option ∈ testDcOptions ++ knownDcOptions ++ [dc203], ∀ preferIpv6,
    NativeSession.endpointsValid option.ipv4 option.ipv6 preferIpv6 = true := by
  decide

theorem of_environmentOptions {testMode : Option Bool} {dc : Int32} {home : DcOption}
    (h : (environmentOptions testMode).lookup dc = some home) :
    home ∈ testDcOptions ++ knownDcOptions ++ [dc203] ∧ home.id = dc := by
  match testMode with
  | some true =>
    obtain ⟨hmem, hid⟩ := DcOption.of_lookup_collect h
    exact ⟨by simp [hmem], hid⟩
  | some false =>
    obtain ⟨hmem, hid⟩ := DcOption.of_lookup_collect h
    exact ⟨by simp [hmem], hid⟩
  | none => cases h

theorem validDc_pos {testMode : Option Bool} {dc : Int32} (h : validDc testMode dc = true) :
    ¬dc ≤ 0 := by
  have hone : (1 : Int32) ≤ dc := by
    unfold validDc at h
    split at h
    · exact (of_decide_eq_true h).1
    · rcases of_decide_eq_true h with ⟨hone, -⟩ | rfl
      · exact hone
      · decide
  rw [Int32.le_iff_toInt_le] at hone ⊢
  have : (1 : Int32).toInt = 1 := by decide
  have : (0 : Int32).toInt = 0 := by decide
  omega

/-- An endpoint that has been validated. -/
def Reachable (endpoint : SocketAddr) : Prop :=
  endpoint.port ≠ 0 ∧ usableIp (unmapIpv4 endpoint.ip) = true

theorem fromParts_safe {format : SessionFormat} {dc : Int32} {testMode : Option Bool}
    {endpoint : Option SocketAddr} {key : DcKey} (hkey : key.1.all (· = 0) = false)
    (hendpoint : ∀ address, endpoint = some address → Reachable address) :
    Safe (fromParts format dc testMode endpoint key) ImportedSession.Usable := by
  unfold fromParts
  refine Safe.ite (fun _ => Safe.error _) fun hdc => ?_
  have hpos := validDc_pos (Bool.not_eq_false _ ▸ hdc)
  extract_lets options
  have hhome : ∀ home, options.lookup dc = some home → home.id = dc ∧
      ∀ preferIpv6, (isV6 endpoint = true → preferIpv6 = true) →
        NativeSession.endpointsValid home.ipv4 home.ipv6 preferIpv6 = true := by
    intro home hlookup
    unfold options at hlookup
    split at hlookup
    next address =>
      rw [AList.lookup_insert] at hlookup
      cases hlookup
      obtain ⟨hport, hip⟩ := hendpoint address rfl
      refine ⟨?_, fun _ => endpointsValid_endpointOption hport hip⟩
      cases address <;> rfl
    next =>
      split at hlookup
      next hdc203 =>
        rw [AList.lookup_insert] at hlookup
        cases hlookup
        exact ⟨hdc203.symm, fun preferIpv6 _ => known_endpoints _ (by simp) preferIpv6⟩
      next =>
        obtain ⟨hmem, hid⟩ := of_environmentOptions hlookup
        exact ⟨hid, fun preferIpv6 _ => known_endpoints _ hmem preferIpv6⟩
  cases hlookup : options.lookup dc with
  | none => exact Safe.error _
  | some home =>
    obtain ⟨hid, hvalid⟩ := hhome home hlookup
    refine Safe.ok ⟨{ home with authKey := some key }, AList.lookup_insert _, hid, ?_⟩
    intro preferIpv6 hprefer
    have hid : ¬home.id ≤ 0 := hid ▸ hpos
    simp [NativeSession.check, hid, hkey, hvalid preferIpv6 hprefer]

theorem checkSize_safe (input : List Char) (limit : Nat) :
    Safe (checkSize input limit) fun _ => True :=
  Safe.ite (fun _ => Safe.error _) fun _ => Safe.ok trivial

theorem readFixed_safe (n : Nat) (input : Bytes) (offset : Nat) :
    Safe (readFixed n input offset) fun _ => True := by
  unfold readFixed
  split
  · exact Safe.ok trivial
  · exact Safe.error _

theorem parseBoolean_safe (value : UInt8) : Safe (parseBoolean value) fun _ => True :=
  Safe.ite (fun _ => Safe.ok trivial) fun _ =>
    Safe.ite (fun _ => Safe.ok trivial) fun _ => Safe.error _

theorem validateKey_safe (bytes : Bytes) :
    Safe (validateKey bytes) fun key => key.1.all (· = 0) = false := by
  unfold validateKey
  split
  · exact Safe.ite (fun _ => Safe.error _) fun hkey => Safe.ok (Bool.not_eq_true _ ▸ hkey)
  · exact Safe.error _

theorem validateEndpoint_safe (endpoint : SocketAddr) :
    Safe (validateEndpoint endpoint) Reachable := by
  refine Safe.ite (fun _ => Safe.error _) fun h => Safe.ok ?_
  obtain ⟨hport, hip⟩ := not_or.mp h
  exact ⟨hport, Bool.not_eq_false _ ▸ hip⟩

/-- The layouts put all that is read within the bytes. -/
theorem pyrogramLayout_safe (bytes : Bytes) : Safe (pyrogramLayout bytes) fun layout =>
    layout.2.1 + 258 + layout.2.2 = bytes.length := by
  refine Safe.ite (fun hlength => ?_) fun _ => Safe.ite (fun hlength => ?_) fun _ =>
    Safe.ite (fun hlength => ?_) fun _ => Safe.error _
  · refine Safe.bind (readFixed_safe 4 bytes 1) fun id _ => ?_
    exact Safe.ite (fun _ => Safe.error _) fun _ => Safe.ok hlength.symm
  · exact Safe.ok hlength.symm
  · exact Safe.ok hlength.symm

variable (env : ImportEnv)

theorem fromPyrogram_safe (input : List Char) :
    Safe (fromPyrogram env input) ImportedSession.Usable := by
  refine Safe.bind (checkSize_safe input stringLimit) fun _ _ => ?_
  refine Safe.bind (Safe.require _ _) fun bytes _ => ?_
  refine Safe.bind (pyrogramLayout_safe bytes) fun ⟨apiId, testOffset, userSize⟩ hlength => ?_
  have hlength : testOffset + 258 + userSize = bytes.length := hlength
  refine Safe.bind (Safe.index (by omega)) fun dc _ => ?_
  refine Safe.bind (Safe.index (by omega)) fun testMode _ => ?_
  refine Safe.bind (parseBoolean_safe testMode) fun testMode _ => ?_
  refine Safe.bind (Safe.slice (by omega) (by omega)) fun key _ => ?_
  refine Safe.bind (validateKey_safe key) fun key hkey => ?_
  refine Safe.bind (readFixed_safe userSize bytes _) fun userId _ => ?_
  refine Safe.ite (fun _ => Safe.error _) fun _ => ?_
  refine Safe.bind (Safe.index (by omega)) fun isBot _ => ?_
  refine Safe.bind (parseBoolean_safe isBot) fun isBot _ => ?_
  exact Safe.bind (fromParts_safe hkey nofun) fun imported himported => Safe.ok himported

theorem telethonIp_safe (bytes : Bytes) : Safe (telethonIp bytes) fun layout =>
    layout.2 + 258 = bytes.length := by
  refine Safe.ite (fun hlength => ?_) fun _ => Safe.ite (fun hlength => ?_) fun _ => Safe.error _
  · exact Safe.bind (readFixed_safe 4 bytes 1) fun ip _ => Safe.ok hlength.symm
  · exact Safe.bind (readFixed_safe 16 bytes 1) fun ip _ => Safe.ok hlength.symm

theorem fromTelethon_safe (input : List Char) :
    Safe (fromTelethon env input) ImportedSession.Usable := by
  refine Safe.bind (checkSize_safe input stringLimit) fun _ _ => ?_
  refine Safe.bind (Safe.require _ _) fun encoded _ => ?_
  refine Safe.bind (Safe.require _ _) fun bytes _ => ?_
  refine Safe.bind (telethonIp_safe bytes) fun ⟨ip, portOffset⟩ hlength => ?_
  have hlength : portOffset + 258 = bytes.length := hlength
  refine Safe.bind (readFixed_safe 2 bytes portOffset) fun port _ => ?_
  refine Safe.bind (validateEndpoint_safe _) fun endpoint hendpoint => ?_
  refine Safe.bind (Safe.slice (by omega) le_rfl) fun key _ => ?_
  refine Safe.bind (validateKey_safe key) fun key hkey => ?_
  refine Safe.bind (Safe.index (by omega)) fun dc _ => ?_
  exact fromParts_safe hkey fun _ heq => Option.some.inj heq ▸ hendpoint

theorem checkKeyId_safe (key : DcKey) (keyId : Option (List Char)) :
    Safe (checkKeyId env key keyId) fun _ => True := by
  cases keyId with
  | none => exact Safe.ok trivial
  | some keyId =>
    refine Safe.ite (fun _ => Safe.error _) fun _ => ?_
    refine Safe.bind (Safe.require _ _) fun keyId _ => ?_
    refine Safe.bind (Safe.slice (by decide) (env.sha1 key.1).2.ge) fun digest _ => ?_
    exact Safe.ite (fun _ => Safe.error _) fun _ => Safe.ok trivial

theorem fromGotdJson_safe (input : List Char) :
    Safe (fromGotdJson env input) ImportedSession.Usable := by
  refine Safe.bind (checkSize_safe input jsonLimit) fun _ _ => ?_
  refine Safe.bind (Safe.require _ _) fun wrapper _ => ?_
  refine Safe.ite (fun _ => Safe.error _) fun _ => ?_
  refine Safe.bind (Safe.require _ _) fun address _ => ?_
  refine Safe.bind (validateEndpoint_safe address) fun endpoint hendpoint => ?_
  refine Safe.ite (fun _ => Safe.error _) fun _ => Safe.ite (fun _ => Safe.error _) fun _ => ?_
  refine Safe.bind (Safe.require _ _) fun key _ => ?_
  refine Safe.bind (validateKey_safe key) fun key hkey => ?_
  refine Safe.bind (checkKeyId_safe env key _) fun _ _ => ?_
  exact fromParts_safe hkey fun _ heq => Option.some.inj heq ▸ hendpoint

theorem parse_safe (input : List Char) : Safe (parse env input) ImportedSession.Usable := by
  refine Safe.bind (checkSize_safe input jsonLimit) fun _ _ => ?_
  split
  · exact fromGotdJson_safe env input
  · exact fromTelethon_safe env input
  · exact fromPyrogram_safe env input

theorem applyOptions_safe {imported : ImportedSession} (h : imported.Usable)
    (preferIpv6 : Option Bool) : Safe (applyOptions preferIpv6 imported) ImportedSession.Usable := by
  cases preferIpv6 with
  | none => exact Safe.ok h
  | some preferIpv6 =>
    refine Safe.ite (fun _ => Safe.error _) fun hprefer => ?_
    obtain ⟨home, hlookup, hid, hvalid⟩ := h
    refine Safe.ok ⟨home, hlookup, hid, fun other hother => hvalid other fun himported => ?_⟩
    cases preferIpv6 with
    | false => exact absurd ⟨himported, rfl⟩ hprefer
    | true => exact hother rfl

theorem run_safe (importer : Importer) (preferIpv6 : Option Bool) (input : List Char) :
    Safe (run env importer preferIpv6 input) ImportedSession.Usable := by
  have happly : ∀ imported : ImportedSession, imported.Usable →
      Safe (applyOptions preferIpv6 imported) ImportedSession.Usable :=
    fun _ h => applyOptions_safe h preferIpv6
  cases importer with
  | pyrogram => exact Safe.bind (fromPyrogram_safe env input) happly
  | telethon => exact Safe.bind (fromTelethon_safe env input) happly
  | gotd => exact Safe.bind (fromGotdJson_safe env input) happly
  | detect => exact Safe.bind (parse_safe env input) happly

end Import

/-- What an import leads to in the native format. -/
theorem ImportedSession.Usable.native {imported : ImportedSession} (h : imported.Usable) :
    ∃ n : NativeSession,
      NativeSession.fromSession (MemorySession.ofData imported.data).reads imported.preferIpv6 = .ok n ∧
      n.dc.id = imported.data.homeDc ∧
      imported.data.dcOptions.lookup imported.data.homeDc = some n.dc ∧
      n.preferIpv6 = imported.preferIpv6 := by
  obtain ⟨home, hlookup, hid, hvalid⟩ := h
  let n : NativeSession := ⟨home, imported.preferIpv6, hvalid _ id⟩
  exact ⟨n, n.fromSession_ofData hid.symm (hid ▸ hlookup), hid, hlookup, rfl⟩

variable (codec : Codec) (sha256 : Bytes → Digest) (env : ImportEnv)

/-- A session is written as one text only, which reads back as that session. Every import can be
exported, with its credentials and the endpoint it prefers, and none panics. -/
theorem credentials_survive_conversions (hcodec : codec.Canonical) :
    (∀ n : NativeSession, NativeSession.parse codec sha256 (n.encode codec sha256) = .ok n) ∧
    (∀ n : NativeSession, NativeSession.fromSession (MemorySession.ofData n.intoSessionData).reads
      n.preferIpv6 = .ok n) ∧
    (∀ text n, NativeSession.parse codec sha256 text = .ok n → n.encode codec sha256 = text) ∧
    (∀ text other n, NativeSession.parse codec sha256 text = .ok n → other ≠ text →
      NativeSession.parse codec sha256 other ≠ .ok n) ∧
    ∀ importer options input, Import.run env importer options input ≠ .error .panic ∧
      ∀ imported, Import.run env importer options input = .ok imported →
        ∃ n, NativeSession.fromSession (MemorySession.ofData imported.data).reads
            imported.preferIpv6 = .ok n ∧
          NativeSession.parse codec sha256 (n.encode codec sha256) = .ok n ∧
          n.dc.id = imported.data.homeDc ∧
          imported.data.dcOptions.lookup imported.data.homeDc = some n.dc ∧
          n.preferIpv6 = imported.preferIpv6 := by
  refine ⟨NativeSession.parse_encode hcodec, NativeSession.fromSession_intoSessionData,
    fun _ _ => NativeSession.encode_parse hcodec, ?_, ?_⟩
  · intro text other n htext hne hother
    exact hne ((NativeSession.encode_parse hcodec hother).symm.trans
      (NativeSession.encode_parse hcodec htext))
  · intro importer options input
    have hsafe := Import.run_safe env importer options input
    refine ⟨hsafe.ne_panic, ?_⟩
    intro imported himported
    rw [himported] at hsafe
    obtain ⟨n, hexport, hid, hdc, hprefer⟩ := ImportedSession.Usable.native hsafe
    exact ⟨n, hexport, NativeSession.parse_encode hcodec n, hid, hdc, hprefer⟩

/-- The alphabet of native sessions. -/
def urlSafeNoPad : Codec := ⟨Base64.encode Base64.urlSafe, Base64.decode Base64.urlSafe⟩

theorem urlSafeNoPad_canonical : urlSafeNoPad.Canonical where
  decode_encode := Base64.decode_encode
  encode_decode := Base64.encode_decode
  length_encode := Base64.length_encode
  urlSafe bytes c h := by
    have hall : Base64.urlSafe.chars.all isUrlSafe = true := by decide
    exact List.all_eq_true.mp hall c (Base64.mem_encode h)

def telethonEnv : ImportEnv where
  decodeUrlSafe := Base64.decode Base64.urlSafe
  decodeStandard _ := none
  fromJson _ := none
  parseAddr _ := none
  sha1 _ := ⟨List.replicate 20 0, rfl⟩

/-- The second datacenter at its known address, with a key of ones. -/
def telethonText : List Char :=
  '1' :: Base64.encode Base64.urlSafe ([2, 149, 154, 167, 41, 1, 187] ++ List.replicate 256 1)

theorem credentials_survive_conversions_telethon : ∃ imported n,
    Import.run telethonEnv .telethon none telethonText = .ok imported ∧
    NativeSession.fromSession (MemorySession.ofData imported.data).reads imported.preferIpv6 = .ok n ∧
    NativeSession.parse urlSafeNoPad (fun _ => ⟨List.replicate 32 0, rfl⟩)
      (n.encode urlSafeNoPad fun _ => ⟨List.replicate 32 0, rfl⟩) = .ok n ∧
    n.dc.id = 2 := by
  have haccepted : (Import.run telethonEnv .telethon none telethonText).toOption.map
      (fun imported => imported.data.homeDc) = some 2 := by
    decide +kernel
  cases himported : Import.run telethonEnv .telethon none telethonText with
  | error e =>
    rw [himported] at haccepted
    cases haccepted
  | ok imported =>
    rw [himported] at haccepted
    obtain ⟨-, -, -, -, himport⟩ := credentials_survive_conversions urlSafeNoPad
      (fun _ => ⟨List.replicate 32 0, rfl⟩) telethonEnv urlSafeNoPad_canonical
    obtain ⟨n, hexport, hparse, hid, -⟩ := (himport .telethon none telethonText).2 imported himported
    exact ⟨imported, n, rfl, hexport, hparse, hid.trans (Option.some.inj haccepted)⟩

end Grammers
