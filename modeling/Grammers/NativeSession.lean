import Grammers.Base64
import Grammers.MemoryStorage

namespace Grammers

inductive SessionStringError where
  | tooLong
  | invalidPrefix
  | unsupportedVersion
  | invalidEncoding
  | invalidLength
  | invalidHeader
  | invalidChecksum
  | invalidDc
  | invalidEndpoint
  | missingDc
  | missingAuthKey
  | invalidAuthKey
  | storage
  deriving DecidableEq

/-- An encoding of bytes as text. -/
structure Codec where
  encode : Bytes → List Char
  decode : List Char → Option Bytes

def isUrlSafe (c : Char) : Bool := c.isAlphanum || c = '-' || c = '_'

/-- An encoding with one text for all bytes, without padding. -/
structure Codec.Canonical (codec : Codec) : Prop where
  decode_encode : ∀ bytes, codec.decode (codec.encode bytes) = some bytes
  encode_decode : ∀ {text bytes}, codec.decode text = some bytes → codec.encode bytes = text
  length_encode : ∀ bytes, (codec.encode bytes).length = (bytes.length * 4 + 2) / 3
  urlSafe : ∀ bytes, ∀ c ∈ codec.encode bytes, isUrlSafe c = true

/-- The length of a text in bytes. -/
def utf8Len (text : List Char) : Nat := (text.map Char.utf8Size).sum

def stripPrefix (start text : List Char) : Option (List Char) :=
  if text.take start.length = start then some (text.drop start.length) else none

/-- The bytes of a decoded string. -/
abbrev DecodedSession : Type := { b : Bytes // b.length = 332 }

/-- Every call uses a fixed offset within the buffer. -/
def field (n : Nat) (bytes : DecodedSession) (offset : Nat) (h : offset + n ≤ 332) :
    { b : Bytes // b.length = n } :=
  ⟨(bytes.1.drop offset).take n, by
    have := bytes.2
    rw [List.length_take, List.length_drop]
    omega⟩

namespace NativeSession

/-- Which endpoints of an option may be left out, and whether the others can be used. -/
def endpointsValid (ipv4 : SocketAddrV4) (ipv6 : SocketAddrV6) (preferIpv6 : Bool) : Bool :=
  let ipv4Absent := ipv4.ip.isUnspecified && (ipv4.port = 0 || preferIpv6)
  let ipv6Absent := ipv6.ip.isUnspecified && ipv6.port = 0 && ipv6.flowinfo = 0 && ipv6.scopeId = 0
  let ipv4Valid := ipv4.port ≠ 0 && !ipv4.ip.isUnspecified && !ipv4.ip.isMulticast &&
    !ipv4.ip.isBroadcast
  let ipv6Valid := ipv6.port ≠ 0 && !ipv6.ip.isUnspecified && !ipv6.ip.isMulticast
  !(!ipv4Valid && !ipv4Absent || !ipv6Valid && !ipv6Absent || preferIpv6 && !ipv6Valid ||
    !preferIpv6 && !ipv4Valid)

def check (dc : DcOption) (preferIpv6 : Bool) : Except SessionStringError Unit :=
  if dc.id ≤ 0 then .error .invalidDc
  else
    match dc.authKey with
    | none => .error .missingAuthKey
    | some key =>
      if key.1.all (· = 0) then .error .invalidAuthKey
      else if endpointsValid dc.ipv4 dc.ipv6 preferIpv6 then .ok () else .error .invalidEndpoint

end NativeSession

/-- Credentials of a home datacenter that have been validated. -/
structure NativeSession where
  dc : DcOption
  preferIpv6 : Bool
  valid : NativeSession.check dc preferIpv6 = .ok ()

namespace NativeSession

def validated (dc : DcOption) (preferIpv6 : Bool) : Except SessionStringError NativeSession :=
  match h : check dc preferIpv6 with
  | .error e => .error e
  | .ok () => .ok ⟨dc, preferIpv6, h⟩

def textPrefix : List Char := "grammers:1:".toList

def asciiBytes (text : List Char) : Bytes := text.map fun c => UInt8.ofNat c.toNat

def magic : Bytes := [0x47, 0x52, 0x41, 0x4d]

def readU16 (b : { b : Bytes // b.length = 2 }) : UInt16 := UInt16.ofNat (BigEndian.ofBytes b.1)

def readU32 (b : { b : Bytes // b.length = 4 }) : UInt32 := UInt32.ofNat (BigEndian.ofBytes b.1)

def readDc (bytes : DecodedSession) : DcOption where
  id := (readU32 (field 4 bytes 8 (by decide))).toInt32
  ipv4 := ⟨field 4 bytes 12 (by decide), readU16 (field 2 bytes 16 (by decide))⟩
  ipv6 := ⟨field 16 bytes 18 (by decide), readU16 (field 2 bytes 34 (by decide)),
    readU32 (field 4 bytes 36 (by decide)), readU32 (field 4 bytes 40 (by decide))⟩
  authKey := some (field 256 bytes 44 (by decide))

def byteAt (bytes : DecodedSession) (i : Nat) (h : i < 332) : UInt8 :=
  bytes.1.get ⟨i, by rw [bytes.2]; exact h⟩

/-- What a session is read from, once its text has been decoded. -/
def parsePayload (sha256 : Bytes → Digest) (bytes : DecodedSession) :
    Except SessionStringError NativeSession :=
  if bytes.1.drop 300 ≠ (sha256 (asciiBytes textPrefix ++ bytes.1.take 300)).1 then
    .error .invalidChecksum
  else if bytes.1.take 4 ≠ magic then .error .invalidHeader
  else if byteAt bytes 4 (by decide) ≠ 1 then .error .unsupportedVersion
  else if byteAt bytes 5 (by decide) &&& ~~~1 ≠ 0 ∨ (field 2 bytes 6 (by decide)).1 ≠ [0, 0] then
    .error .invalidHeader
  else validated (readDc bytes) (byteAt bytes 5 (by decide) = 1)

def parse (codec : Codec) (sha256 : Bytes → Digest) (input : List Char) :
    Except SessionStringError NativeSession :=
  if utf8Len input > 1024 then .error .tooLong
  else
    match stripPrefix "grammers:".toList input with
    | none => .error .invalidPrefix
    | some versioned =>
      match stripPrefix "1:".toList versioned with
      | none => .error .unsupportedVersion
      | some encoded =>
        if !encoded.all isUrlSafe then .error .invalidEncoding
        else if utf8Len encoded ≠ 443 then .error .invalidLength
        else
          match codec.decode encoded with
          | none => .error .invalidEncoding
          | some bytes =>
            if bytes.length > 332 then .error .invalidEncoding
            else if h : bytes.length = 332 then parsePayload sha256 ⟨bytes, h⟩
            else .error .invalidLength

/-- The bytes before the checksum. -/
def payload (n : NativeSession) : Bytes :=
  magic ++ ([1] ++ ([if n.preferIpv6 then 1 else 0] ++ ([0, 0] ++
    (BigEndian.toBytes 4 n.dc.id.toUInt32.toNat ++ (n.dc.ipv4.ip.1 ++
      (BigEndian.toBytes 2 n.dc.ipv4.port.toNat ++ (n.dc.ipv6.ip.1 ++
        (BigEndian.toBytes 2 n.dc.ipv6.port.toNat ++
          (BigEndian.toBytes 4 n.dc.ipv6.flowinfo.toNat ++
            (BigEndian.toBytes 4 n.dc.ipv6.scopeId.toNat ++
              (n.dc.authKey.elim (List.replicate 256 0) Subtype.val)))))))))))

def encode (codec : Codec) (sha256 : Bytes → Digest) (n : NativeSession) : List Char :=
  textPrefix ++ codec.encode
    (n.payload ++ (sha256 (asciiBytes textPrefix ++ n.payload)).1)

/-- The reads of a session, which may fail. -/
structure SessionReads (ε : Type) where
  homeDcId : Except ε Int32
  dcOption : Int32 → Except ε (Option DcOption)

def fromSession {ε : Type} (session : SessionReads ε) (preferIpv6 : Bool) :
    Except SessionStringError NativeSession :=
  match session.homeDcId with
  | .error _ => .error .storage
  | .ok homeDc =>
    if homeDc ≤ 0 then .error .invalidDc
    else
      match session.dcOption homeDc with
      | .error _ => .error .storage
      | .ok none => .error .missingDc
      | .ok (some dc) => if dc.id ≠ homeDc then .error .invalidDc else validated dc preferIpv6

theorem validated_eq (n : NativeSession) : validated n.dc n.preferIpv6 = .ok n := by
  unfold validated
  split
  next e h =>
    rw [n.valid] at h
    cases h
  next => rfl

theorem of_validated {dc : DcOption} {preferIpv6 : Bool} {n : NativeSession}
    (h : validated dc preferIpv6 = .ok n) : n.dc = dc ∧ n.preferIpv6 = preferIpv6 := by
  unfold validated at h
  split at h
  · cases h
  · cases h
    exact ⟨rfl, rfl⟩

theorem exists_authKey (n : NativeSession) : ∃ key, n.dc.authKey = some key := by
  have h := n.valid
  unfold check at h
  split at h
  · cases h
  · split at h
    · cases h
    next key hkey => exact ⟨key, hkey⟩

theorem toBytes_readU16 (b : { b : Bytes // b.length = 2 }) :
    BigEndian.toBytes 2 (readU16 b).toNat = b.1 := by
  have hlt := BigEndian.ofBytes_lt b.1
  rw [b.2] at hlt
  have hbytes := BigEndian.toBytes_ofBytes b.1
  rw [b.2] at hbytes
  rw [readU16, UInt16.toNat_ofNat_of_lt' (show _ < 65536 from hlt), hbytes]

theorem toBytes_readU32 (b : { b : Bytes // b.length = 4 }) :
    BigEndian.toBytes 4 (readU32 b).toNat = b.1 := by
  have hlt := BigEndian.ofBytes_lt b.1
  rw [b.2] at hlt
  have hbytes := BigEndian.toBytes_ofBytes b.1
  rw [b.2] at hbytes
  rw [readU32, UInt32.toNat_ofNat_of_lt' (show _ < 4294967296 from hlt), hbytes]

theorem readU16_toBytes {b : { b : Bytes // b.length = 2 }} {x : UInt16}
    (h : b.1 = BigEndian.toBytes 2 x.toNat) : readU16 b = x := by
  have hlt := x.toNat_lt
  rw [readU16, h, BigEndian.ofBytes_toBytes, Nat.mod_eq_of_lt (show _ < 256 ^ 2 from hlt),
    UInt16.ofNat_toNat]

theorem readU32_toBytes {b : { b : Bytes // b.length = 4 }} {x : UInt32}
    (h : b.1 = BigEndian.toBytes 4 x.toNat) : readU32 b = x := by
  have hlt := x.toNat_lt
  rw [readU32, h, BigEndian.ofBytes_toBytes, Nat.mod_eq_of_lt (show _ < 256 ^ 4 from hlt),
    UInt32.ofNat_toNat]

/-- The fields follow one another up to the checksum. -/
theorem take_eq_fields (bytes : DecodedSession) : bytes.1.take 300 = bytes.1.take 4 ++
    ((field 1 bytes 4 (by decide)).1 ++ ((field 1 bytes 5 (by decide)).1 ++
      ((field 2 bytes 6 (by decide)).1 ++ ((field 4 bytes 8 (by decide)).1 ++
        ((field 4 bytes 12 (by decide)).1 ++ ((field 2 bytes 16 (by decide)).1 ++
          ((field 16 bytes 18 (by decide)).1 ++ ((field 2 bytes 34 (by decide)).1 ++
            ((field 4 bytes 36 (by decide)).1 ++ ((field 4 bytes 40 (by decide)).1 ++
              (field 256 bytes 44 (by decide)).1)))))))))) := by
  have hsplit (n m k : Nat) : (bytes.1.drop k).take (n + m) =
      (bytes.1.drop k).take n ++ (bytes.1.drop (k + n)).take m := by
    rw [List.take_add, List.drop_drop]
  have hstart := hsplit 4 296 0
  rw [List.drop_zero] at hstart
  simp only [field]
  rw [hstart, hsplit 1 295 4, hsplit 1 294 5, hsplit 2 292 6, hsplit 4 288 8, hsplit 4 284 12,
    hsplit 2 282 16, hsplit 16 266 18, hsplit 2 264 34, hsplit 4 260 36, hsplit 4 256 40]

theorem field_one (bytes : DecodedSession) {i : Nat} (h : i + 1 ≤ 332) :
    (field 1 bytes i h).1 = [byteAt bytes i (by omega)] := by
  have hlt : i < bytes.1.length := by
    rw [bytes.2]
    omega
  show (bytes.1.drop i).take 1 = _
  rw [List.drop_eq_getElem_cons hlt]
  rfl

theorem flags_eq (x : UInt8) : x &&& ~~~1 = 0 ↔ x = 0 ∨ x = 1 := by
  have h : ∀ b : BitVec 8, b &&& ~~~1 = 0 ↔ b = 0 ∨ b = 1 := by decide
  have hx := h x.toBitVec
  simpa [← UInt8.toBitVec_inj] using hx

theorem length_payload (n : NativeSession) : n.payload.length = 300 := by
  have hkey : (n.dc.authKey.elim (List.replicate 256 (0 : UInt8)) Subtype.val).length = 256 := by
    obtain ⟨key, hkey⟩ := n.exists_authKey
    rw [hkey]
    exact key.2
  simp only [payload, List.length_append, BigEndian.length_toBytes, n.dc.ipv4.ip.2, n.dc.ipv6.ip.2,
    hkey, magic, List.length_cons, List.length_nil]

theorem isUrlSafe_utf8Size {c : Char} (h : isUrlSafe c = true) : c.utf8Size = 1 := by
  change (decide (c.val ≥ 65 ∧ c.val ≤ 90) || (c.val ≥ 97 && c.val ≤ 122) ||
    (c.val ≥ 48 && c.val ≤ 57) || c = '-' || c = '_') = true at h
  simp only [Bool.or_eq_true, Bool.and_eq_true, decide_eq_true_eq] at h
  have hle : c.val ≤ 0x7f := by
    rcases h with (((⟨-, h⟩ | ⟨-, h⟩) | ⟨-, h⟩) | rfl) | rfl
    · exact UInt32.le_trans h (by decide)
    · exact UInt32.le_trans h (by decide)
    · exact UInt32.le_trans h (by decide)
    · decide
    · decide
  simp [Char.utf8Size, hle]

theorem utf8Len_append (a b : List Char) : utf8Len (a ++ b) = utf8Len a + utf8Len b := by
  simp [utf8Len]

theorem utf8Len_urlSafe {text : List Char} (h : text.all isUrlSafe = true) :
    utf8Len text = text.length := by
  induction text with
  | nil => rfl
  | cons c text ih =>
    rw [List.all_cons, Bool.and_eq_true] at h
    have hc := isUrlSafe_utf8Size h.1
    have htext := ih h.2
    simp only [utf8Len, List.map_cons, List.sum_cons, List.length_cons] at htext ⊢
    omega

theorem stripPrefix_append (start text : List Char) :
    stripPrefix start (start ++ text) = some text := by
  simp [stripPrefix]

theorem of_stripPrefix {start text rest : List Char} (h : stripPrefix start text = some rest) :
    text = start ++ rest := by
  unfold stripPrefix at h
  split at h
  next hstart =>
    cases h
    conv_lhs => rw [← List.take_append_drop start.length text, hstart]
  next => cases h

/-- What is read from the bytes that a session is written as. -/
theorem parsePayload_payload (sha256 : Bytes → Digest) (n : NativeSession) {bytes : DecodedSession}
    (h : bytes.1 = n.payload ++ (sha256 (asciiBytes textPrefix ++ n.payload)).1) :
    parsePayload sha256 bytes = .ok n := by
  have hlen := n.length_payload
  have htake : bytes.1.take 300 = n.payload := by rw [h, List.take_left' hlen]
  have hdrop : bytes.1.drop 300 = (sha256 (asciiBytes textPrefix ++ n.payload)).1 := by
    rw [h, List.drop_left' hlen]
  obtain ⟨key, hkey⟩ := n.exists_authKey
  have hfields := take_eq_fields bytes
  have hmagic : (bytes.1.take 4).length = magic.length := by
    rw [List.length_take, bytes.2]
    rfl
  rw [htake, payload, hkey] at hfields
  obtain ⟨h0, hfields⟩ := List.append_inj hfields hmagic.symm
  obtain ⟨h4, hfields⟩ := List.append_inj hfields (by rw [(field 1 bytes 4 _).2]; rfl)
  obtain ⟨h5, hfields⟩ := List.append_inj hfields (by rw [(field 1 bytes 5 _).2]; rfl)
  obtain ⟨h6, hfields⟩ := List.append_inj hfields (by rw [(field 2 bytes 6 _).2]; rfl)
  obtain ⟨h8, hfields⟩ := List.append_inj hfields (by rw [(field 4 bytes 8 _).2]; simp)
  obtain ⟨h12, hfields⟩ := List.append_inj hfields
    (by rw [(field 4 bytes 12 _).2, n.dc.ipv4.ip.2])
  obtain ⟨h16, hfields⟩ := List.append_inj hfields (by rw [(field 2 bytes 16 _).2]; simp)
  obtain ⟨h18, hfields⟩ := List.append_inj hfields
    (by rw [(field 16 bytes 18 _).2, n.dc.ipv6.ip.2])
  obtain ⟨h34, hfields⟩ := List.append_inj hfields (by rw [(field 2 bytes 34 _).2]; simp)
  obtain ⟨h36, hfields⟩ := List.append_inj hfields (by rw [(field 4 bytes 36 _).2]; simp)
  obtain ⟨h40, h44⟩ := List.append_inj hfields (by rw [(field 4 bytes 40 _).2]; simp)
  have hdc : readDc bytes = n.dc := by
    have hid : (readU32 (field 4 bytes 8 (by decide))).toInt32 = n.dc.id := by
      rw [readU32_toBytes h8.symm, Int32.toInt32_toUInt32]
    have hipv4 : (⟨field 4 bytes 12 (by decide), readU16 (field 2 bytes 16 (by decide))⟩ :
        SocketAddrV4) = n.dc.ipv4 := by
      rw [readU16_toBytes h16.symm, show field 4 bytes 12 (by decide) = n.dc.ipv4.ip from
        Subtype.ext h12.symm]
    have hipv6 : (⟨field 16 bytes 18 (by decide), readU16 (field 2 bytes 34 (by decide)),
        readU32 (field 4 bytes 36 (by decide)), readU32 (field 4 bytes 40 (by decide))⟩ :
        SocketAddrV6) = n.dc.ipv6 := by
      rw [readU16_toBytes h34.symm, readU32_toBytes h36.symm, readU32_toBytes h40.symm,
        show field 16 bytes 18 (by decide) = n.dc.ipv6.ip from Subtype.ext h18.symm]
    have hauth : some (field 256 bytes 44 (by decide)) = n.dc.authKey := by
      rw [hkey]
      exact congrArg some (Subtype.ext h44.symm)
    rw [readDc, hid, hipv4, hipv6, hauth]
  have hversion : byteAt bytes 4 (by decide) = 1 := by
    rw [field_one] at h4
    exact (List.cons.inj h4).1.symm
  have hflags : byteAt bytes 5 (by decide) = if n.preferIpv6 then 1 else 0 := by
    rw [field_one] at h5
    exact (List.cons.inj h5).1.symm
  have hflag : byteAt bytes 5 (by decide) &&& ~~~1 = 0 := by
    rw [flags_eq, hflags]
    cases n.preferIpv6
    · exact Or.inl rfl
    · exact Or.inr rfl
  have hprefer : decide (byteAt bytes 5 (by decide) = 1) = n.preferIpv6 := by
    rw [hflags]
    cases n.preferIpv6 <;> rfl
  unfold parsePayload
  rw [if_neg (by rw [htake, hdrop]; simp), if_neg (by rw [← h0]; simp),
    if_neg (by rw [hversion]; simp), if_neg (by rw [hflag, ← h6]; simp), hdc, hprefer,
    n.validated_eq]

/-- The bytes that a session was read from are those it is written as. -/
theorem payload_of_parsePayload {sha256 : Bytes → Digest} {n : NativeSession}
    {bytes : DecodedSession} (h : parsePayload sha256 bytes = .ok n) :
    n.payload ++ (sha256 (asciiBytes textPrefix ++ n.payload)).1 = bytes.1 := by
  unfold parsePayload at h
  split at h
  · cases h
  next hsum =>
  split at h
  · cases h
  next hmagic =>
  split at h
  · cases h
  next hversion =>
  split at h
  · cases h
  next hheader =>
  obtain ⟨hdc, hprefer⟩ := of_validated h
  obtain ⟨hflag, hreserved⟩ := not_or.mp hheader
  have hflags : (if n.preferIpv6 then 1 else 0) = byteAt bytes 5 (by decide) := by
    rw [hprefer]
    rcases (flags_eq _).mp (not_not.mp hflag) with h0 | h1
    · rw [h0]
      rfl
    · rw [h1]
      rfl
  have hid : n.dc.id.toUInt32 = readU32 (field 4 bytes 8 (by decide)) := by
    rw [hdc, readDc, UInt32.toUInt32_toInt32]
  have hpayload : n.payload = bytes.1.take 300 := by
    rw [take_eq_fields, payload, hflags, hid, toBytes_readU32, field_one bytes (i := 4),
      field_one bytes (i := 5), not_not.mp hversion, not_not.mp hmagic, not_not.mp hreserved, hdc]
    simp only [readDc, toBytes_readU16, toBytes_readU32, Option.elim]
  rw [hpayload, ← not_not.mp hsum, List.take_append_drop]

variable {codec : Codec} {sha256 : Bytes → Digest}

theorem length_encoded (hcodec : codec.Canonical) (n : NativeSession) :
    (codec.encode (n.payload ++ (sha256 (asciiBytes textPrefix ++ n.payload)).1)).length = 443 := by
  rw [hcodec.length_encode, List.length_append, length_payload, (sha256 _).2]

/-- A session is read back from the text it is written as. -/
theorem parse_encode (hcodec : codec.Canonical) (n : NativeSession) :
    parse codec sha256 (n.encode codec sha256) = .ok n := by
  obtain ⟨bytes, hbytes⟩ : ∃ bytes, bytes =
    n.payload ++ (sha256 (asciiBytes textPrefix ++ n.payload)).1 := ⟨_, rfl⟩
  have hlength : bytes.length = 332 := by
    rw [hbytes, List.length_append, length_payload, (sha256 _).2]
  have hsafe : (codec.encode bytes).all isUrlSafe = true := by
    rw [List.all_eq_true]
    exact hcodec.urlSafe bytes
  have hencoded : utf8Len (codec.encode bytes) = 443 := by
    rw [utf8Len_urlSafe hsafe, hbytes, length_encoded hcodec]
  have htext : n.encode codec sha256 =
      "grammers:".toList ++ ("1:".toList ++ codec.encode bytes) := by
    rw [encode, ← hbytes, ← List.append_assoc]
    rfl
  have hshort : ¬utf8Len (n.encode codec sha256) > 1024 := by
    have hstart : utf8Len "grammers:".toList = 9 := by decide
    have hversion : utf8Len "1:".toList = 2 := by decide
    rw [htext, utf8Len_append, utf8Len_append, hencoded, hstart, hversion]
    omega
  unfold parse
  rw [if_neg hshort, htext]
  simp only [stripPrefix_append, hsafe, hencoded, hcodec.decode_encode, hlength, Bool.not_true,
    Bool.false_eq_true, ne_eq, not_true_eq_false, ↓reduceIte, gt_iff_lt, Nat.lt_irrefl, ↓reduceDIte]
  exact parsePayload_payload sha256 n hbytes

/-- There is one text for a session. -/
theorem encode_parse (hcodec : codec.Canonical) {text : List Char} {n : NativeSession}
    (h : parse codec sha256 text = .ok n) : n.encode codec sha256 = text := by
  unfold parse at h
  split at h
  · cases h
  split at h
  · cases h
  next versioned hversioned =>
  split at h
  · cases h
  next encoded hencoded =>
  split at h
  · cases h
  split at h
  · cases h
  split at h
  · cases h
  next bytes hdecode =>
  split at h
  · cases h
  split at h
  next hlength =>
    have hbytes := payload_of_parsePayload h
    rw [encode, hbytes, hcodec.encode_decode hdecode, of_stripPrefix hversioned,
      of_stripPrefix hencoded, ← List.append_assoc]
    rfl
  · cases h

end NativeSession

end Grammers
