import Grammers.ReceiveCut

namespace Grammers

open Checked Incremental

def maxPacket : Nat := 1024 * 1024 + 8 * 1024 - 4

/-- Addition of lengths that fails where it overflows. -/
def usizeAdd (a b : Nat) : Option Nat := if a + b < 2 ^ 64 then some (a + b) else none

/-- How much of a padded packet is its payload. -/
def payloadSize (payload : Bytes) (size : Nat) : Except (Fault TransportError) Nat := do
  let keyId ← slice payload 0 8
  if keyId = List.replicate 8 0 then
    let bodySize ← readI32 payload 16 20
    if bodySize ≤ 0 ∨ bodySize % 4 ≠ 0 then .error (.error (.badLen bodySize))
    else
      match usizeAdd 20 (asUsize bodySize) with
      | some n => .ok n
      | none => .error (.error (.badLen bodySize))
  else if size < 40 then .error (.error (.badLen (Int32.ofNat size)))
  else .ok (24 + (← sub size 24) / 16 * 16)

def unpackPadded (buffer : Bytes) : Except (Fault TransportError) UnpackedOffset := do
  if buffer.length < 4 then .error (.error .missingBytes)
  else
    let size ← readI32 buffer 0 4
    if size < 4 ∨ asUsize size > maxPacket then .error (.error (.badLen size))
    else
      let size := asUsize size
      if buffer.length < 4 + size then .error (.error .missingBytes)
      else
        let payload ← slice buffer 4 (4 + size)
        if size < 20 then
          let status ← readI32 payload 0 4
          if status < 0 then .error (.error (.badStatus (-status).toUInt32))
          else .error (.error (.badLen (Int32.ofNat size)))
        else
          let payloadSize ← payloadSize payload size
          if payloadSize > size then .error (.error (.badLen (Int32.ofNat size)))
          else if (← sub size payloadSize) > 15 then .error (.error (.badLen (Int32.ofNat size)))
          else .ok ⟨4, 4 + payloadSize, 4 + size⟩

/-- The cipher of each direction is a key stream and the position it stands at. -/
structure MtProxyTransport where
  sent : Nat
  position : Nat
  head : Option Bytes
  decrypted : Nat
  padded : Bool
  abridged : Abridged
  deriving DecidableEq

namespace MtProxyTransport

/-- The key streams that a nonce and a key give, for what is sent and for what is received. -/
structure Streams where
  tx : Nat → UInt8
  rx : Nat → UInt8

def tag (padded : Bool) : Bytes := List.replicate 4 (if padded then 0xdd else 0xef)

def withNonce (cipher : Bytes → Streams) (padded : Bool) (dcId : Int16) (nonce : Bytes) :
    MtProxyTransport :=
  let nonce := nonce.take 56 ++ (tag padded ++
    (LittleEndian.toBytes 2 dcId.toUInt16.toNat ++ nonce.drop 62))
  let encrypted := xorStream (cipher nonce).tx 0 nonce
  ⟨encrypted.length, 0, some (nonce.take 56 ++ encrypted.drop 56), 0, padded, ⟨true⟩⟩

/-- The packet before the cipher: its length and padding, or an abridged header. -/
def packet (random : Bytes) (t : MtProxyTransport) (buffer : Bytes) :
    Except (Fault TransportError) (Bytes × MtProxyTransport) :=
  if t.padded then do
    if buffer.length % 4 ≠ 0 then .error .panic
    else
      let padding ← slice random 0 ((← index random 0) &&& 15).toNat
      let buffer := buffer ++ padding
      if 2 ^ 32 ≤ buffer.length then .error .panic
      else .ok (LittleEndian.toBytes 4 buffer.length ++ buffer, t)
  else (t.abridged.pack buffer).map fun (buffer, abridged) =>
    (buffer, { t with abridged := abridged })

def pack (tx : Nat → UInt8) (random : Bytes) (t : MtProxyTransport) (buffer : Bytes) :
    Except (Fault TransportError) (Bytes × MtProxyTransport) := do
  let (buffer, t) ← t.packet random buffer
  let encrypted := xorStream tx t.sent buffer
  .ok (t.head.getD [] ++ encrypted, { t with sent := t.sent + buffer.length, head := none })

def read (t : MtProxyTransport) (buffer : Bytes) :
    Except (Fault TransportError) UnpackedOffset × MtProxyTransport :=
  if t.padded then (unpackPadded buffer, t)
  else
    let (result, abridged) := t.abridged.unpack buffer
    (result, { t with abridged := abridged })

/-- Unpack a buffer in place: what has not been decrypted yet is decrypted first. -/
def unpack (rx : Nat → UInt8) (t : MtProxyTransport) (buffer : Bytes) :
    Except (Fault TransportError) UnpackedOffset × MtProxyTransport × Bytes :=
  if buffer.length < t.decrypted then (.error (.error (.badLen (-1))), t, buffer)
  else
    let raw := buffer.drop t.decrypted
    let buffer := buffer.take t.decrypted ++ xorStream rx t.position raw
    let t := { t with position := t.position + raw.length, decrypted := buffer.length }
    match t.read buffer with
    | (.error e, t) => (.error e, t, buffer)
    | (.ok offset, t) =>
      match sub t.decrypted offset.nextOffset with
      | .error e => (.error e, t, buffer)
      | .ok decrypted => (.ok offset, { t with decrypted := decrypted }, buffer)

end MtProxyTransport

namespace Padded

def lengthOf (head : Bytes) : Int32 := Int32.ofNat (LittleEndian.ofBytes head)

/-- How much of a packet is used, without panics. -/
def used (payload : Bytes) : Except TransportError Nat :=
  let bodySize := Int32.ofNat (LittleEndian.ofBytes ((payload.drop 16).take 4))
  if payload.take 8 = List.replicate 8 0 then
    if bodySize ≤ 0 ∨ bodySize % 4 ≠ 0 then .error (.badLen bodySize)
    else .ok (20 + bodySize.toInt.toNat)
  else if payload.length < 40 then .error (.badLen (Int32.ofNat payload.length))
  else .ok (24 + (payload.length - 24) / 16 * 16)

/-- What a whole packet holds. -/
def check (payload : Bytes) : Except TransportError UnpackedOffset :=
  let status := Int32.ofNat (LittleEndian.ofBytes (payload.take 4))
  if payload.length < 20 then
    .error (if status < 0 then .badStatus (-status).toUInt32
      else .badLen (Int32.ofNat payload.length))
  else
    match used payload with
    | .error e => .error e
    | .ok n =>
      if n > payload.length ∨ payload.length - n > 15 then
        .error (.badLen (Int32.ofNat payload.length))
      else .ok ⟨4, 4 + n, 4 + payload.length⟩

def reader : Reader UInt8 (Except TransportError UnpackedOffset) :=
  .need 4 fun head =>
    if lengthOf head < 4 ∨ asUsize (lengthOf head) > maxPacket then
      .done (.error (.badLen (lengthOf head)))
    else .need (4 + asUsize (lengthOf head)) fun frame => .done (check (frame.drop 4))

theorem usizeAdd_body {x : Int32} (h : 0 ≤ x.toInt) :
    usizeAdd 20 (asUsize x) = some (20 + x.toInt.toNat) := by
  have hlt := x.toInt_lt
  rw [usizeAdd, asUsize_eq h, if_pos (by omega)]

theorem payloadSize_eq {payload : Bytes} (h : 20 ≤ payload.length) :
    payloadSize payload payload.length = (used payload).mapError .error := by
  have hkey : slice (ε := TransportError) payload 0 8 = .ok (payload.take 8) := by
    rw [slice_ok (by omega) (by omega)]
    rfl
  have hbody : readI32 payload 16 20 =
      .ok (Int32.ofNat (LittleEndian.ofBytes ((payload.drop 16).take 4))) := readI32_ok rfl h
  simp only [payloadSize, hkey, hbody, used, bind, Except.bind]
  split
  · split
    · rfl
    next hpos =>
      have hnonneg : 0 ≤ (Int32.ofNat (LittleEndian.ofBytes ((payload.drop 16).take 4))).toInt := by
        have := Int32.not_le.mp (not_or.mp hpos).1
        rw [Int32.lt_iff_toInt_lt] at this
        exact Int.le_of_lt this
      rw [usizeAdd_body hnonneg]
      rfl
  · split
    · rfl
    · rw [sub_ok (by omega)]
      rfl

/-- A whole packet is read without a panic. -/
theorem unpackPadded_of_le {b : Bytes} (h4 : 4 ≤ b.length)
    (hsize : ¬(lengthOf (b.take 4) < 4 ∨ asUsize (lengthOf (b.take 4)) > maxPacket))
    (hle : 4 + asUsize (lengthOf (b.take 4)) ≤ b.length) :
    unpackPadded b =
      awaited (some (check ((b.take (4 + asUsize (lengthOf (b.take 4)))).drop 4))) := by
  have hhead : readI32 b 0 4 = .ok (lengthOf (b.take 4)) := readI32_ok rfl h4
  have hstatus : 4 ≤ asUsize (lengthOf (b.take 4)) := by
    have h := Int32.not_lt.mp (not_or.mp hsize).1
    rw [Int32.le_iff_toInt_le] at h
    have h' : 4 ≤ (lengthOf (b.take 4)).toInt := h
    rw [asUsize_eq (by omega)]
    omega
  obtain ⟨n, hn⟩ : ∃ n, n = asUsize (lengthOf (b.take 4)) := ⟨_, rfl⟩
  rw [← hn] at hle hsize hstatus ⊢
  obtain ⟨payload, hpayload⟩ : ∃ payload, payload = (b.take (4 + n)).drop 4 := ⟨_, rfl⟩
  have hlen : payload.length = n := by
    rw [hpayload, List.length_drop, List.length_take]
    omega
  have hslice : slice (ε := TransportError) b 4 (4 + n) = .ok payload := by
    rw [slice_ok (by omega) hle, hpayload, List.drop_take]
  simp only [unpackPadded, Nat.not_lt.mpr h4, hhead, ← hn, hsize, Nat.not_lt.mpr hle, hslice, bind,
    Except.bind, ↓reduceIte, ← hpayload]
  subst hlen
  by_cases h20 : payload.length < 20
  · have hread : readI32 payload 0 4 =
        .ok (Int32.ofNat (LittleEndian.ofBytes (payload.take 4))) := readI32_ok rfl hstatus
    simp only [h20, hread, check, ↓reduceIte]
    split <;> rfl
  · simp only [h20, payloadSize_eq (Nat.not_lt.mp h20), check, ↓reduceIte]
    rcases hused : used payload with e | m
    · rfl
    · simp only [Except.mapError]
      by_cases hm : m > payload.length
      · simp only [hm, true_or, ↓reduceIte]
        rfl
      · simp only [hm, false_or, ↓reduceIte, sub_ok (Nat.not_lt.mp hm)]
        split <;> rfl

theorem unpackPadded_eq (b : Bytes) : unpackPadded b = awaited (reader.run b) := by
  rcases Nat.lt_or_ge b.length 4 with h4 | h4
  · rw [reader, Reader.run_need_of_lt _ h4]
    simp [unpackPadded, h4, awaited]
  · rw [reader, Reader.run_need_of_le _ h4]
    have hhead : readI32 b 0 4 = .ok (lengthOf (b.take 4)) := readI32_ok rfl h4
    by_cases hsize : lengthOf (b.take 4) < 4 ∨ asUsize (lengthOf (b.take 4)) > maxPacket
    · simp only [unpackPadded, Nat.not_lt.mpr h4, hhead, hsize, ↓reduceIte, bind, Except.bind,
        Reader.run_done, awaited]
    · simp only [hsize, ↓reduceIte]
      rcases Nat.lt_or_ge b.length (4 + asUsize (lengthOf (b.take 4))) with hlt | hle
      · rw [Reader.run_need_of_lt _ hlt]
        simp only [unpackPadded, Nat.not_lt.mpr h4, hhead, hsize, hlt, ↓reduceIte, bind,
          Except.bind, awaited]
      · rw [Reader.run_need_of_le _ hle, Reader.run_done]
        exact unpackPadded_of_le h4 hsize hle

theorem of_run {b : Bytes} {offset : UnpackedOffset} (h : reader.run b = some (.ok offset)) :
    offset.dataStart = 4 ∧ Transport.Inside offset b := by
  obtain ⟨_, h⟩ := Reader.run_need_some h
  split at h
  · simp at h
  obtain ⟨hge, h⟩ := Reader.run_need_some h
  have hlen : ((b.take (4 + asUsize (lengthOf (b.take 4)))).drop 4).length =
      asUsize (lengthOf (b.take 4)) := by
    rw [List.length_drop, List.length_take]
    omega
  rw [Reader.run_done, check, hlen] at h
  split at h
  · simp at h
  split at h
  · simp at h
  split at h
  · simp at h
  next hfits =>
    obtain rfl := Except.ok.inj (Option.some.inj h)
    refine ⟨rfl, ?_⟩
    constructor <;> simp only <;> omega

end Padded

/-- On any bytes, a call ends without a panic, and what it returns is inside them. -/
theorem unpackPadded_total (b : Bytes) : unpackPadded b ≠ .error .panic ∧
    ∀ offset, unpackPadded b = .ok offset → 4 ≤ offset.dataStart ∧
      offset.dataStart ≤ offset.dataEnd ∧ offset.dataEnd ≤ offset.nextOffset ∧
        offset.nextOffset ≤ b.length := by
  rw [Padded.unpackPadded_eq]
  rcases h : Padded.reader.run b with _ | e | offset
  · exact ⟨nofun, nofun⟩
  · exact ⟨nofun, nofun⟩
  · refine ⟨nofun, ?_⟩
    rintro _ ⟨rfl⟩
    obtain ⟨hstart, hin⟩ := Padded.of_run h
    exact ⟨hstart.ge, hin.ordered, hin.within, hin.bounded⟩

/-- What the protocol sends: a message in the clear that says how long it is, or an encrypted one
of whole blocks. -/
inductive MtprotoMessage : Bytes → Prop where
  | plain {msgId body : Bytes} (id : msgId.length = 8) (positive : 0 < body.length)
      (words : body.length % 4 = 0) : MtprotoMessage
        (List.replicate 8 0 ++ (msgId ++ (leBytes (Int32.ofNat body.length) ++ body)))
  | encrypted {p : Bytes} {k : Nat} (keyId : p.take 8 ≠ List.replicate 8 0) (positive : 1 ≤ k)
      (blocks : p.length = 24 + 16 * k) : MtprotoMessage p

structure ProxyPayload (p : Bytes) : Prop where
  message : MtprotoMessage p
  bounded : p.length ≤ maxPacket - 15

/-- A packet before the cipher, with the padding chosen for it. -/
def frame (padded : Bool) (payload padding : Bytes) : Bytes :=
  if padded then
    LittleEndian.toBytes 4 (payload.length + padding.length) ++ (payload ++ padding)
  else Abridged.header (payload.length / 4) ++ payload

namespace ProxyPayload

variable {p padding : Bytes}

theorem length_ge (h : ProxyPayload p) : 24 ≤ p.length ∧ p.length % 4 = 0 := by
  cases h.message with
  | plain hid hpos hwords =>
    simp only [List.length_append, List.length_replicate, Transport.length_leBytes]
    omega
  | encrypted _ hpos hlen => omega

theorem payload (h : ProxyPayload p) : Transport.Payload p := by
  have hb := h.bounded
  have hl := h.length_ge
  exact ⟨hl.2, by omega, by unfold maxPacket at hb; omega⟩

/-- Where the payload ends is found again, whatever the padding. -/
theorem used_padded (h : ProxyPayload p) (hpad : padding.length ≤ 15) :
    Padded.used (p ++ padding) = .ok p.length := by
  have hbound := h.bounded
  cases h.message with
  | @plain msgId body hid hpos hwords =>
    have hkey : (List.replicate 8 (0 : UInt8) ++ (msgId ++ (leBytes (Int32.ofNat body.length) ++ body)) ++
        padding).take 8 = List.replicate 8 0 := by
      rw [List.append_assoc, List.take_left' (by simp)]
    have hlen : ((List.replicate 8 (0 : UInt8) ++ (msgId ++ (leBytes (Int32.ofNat body.length) ++ body)) ++
        padding).drop 16).take 4 = leBytes (Int32.ofNat body.length) := by
      rw [List.append_assoc, List.append_assoc, List.append_assoc, ← List.append_assoc,
        List.drop_left' (by simp [hid]), List.take_left' (by simp)]
    simp only [List.length_append, List.length_replicate, Transport.length_leBytes, hid] at hbound
    have hshort : body.length < 2 ^ 31 := by unfold maxPacket at hbound; omega
    have hint : (Int32.ofNat body.length).toInt = body.length := Int32.toInt_ofNat_of_lt hshort
    have hle : ¬Int32.ofNat body.length ≤ 0 := by
      rw [Int32.le_iff_toInt_le, hint]
      show ¬((body.length : Int) ≤ 0)
      omega
    have hmod : Int32.ofNat body.length % 4 = 0 := by
      apply Int32.toInt_inj.mp
      rw [Int32.toInt_mod, hint]
      show Int.tmod body.length 4 = 0
      rw [Int.tmod_eq_emod_of_nonneg (by omega)]
      omega
    simp only [Padded.used, hkey, hlen, Transport.ofNat_leBytes, hle, hmod, ↓reduceIte, ne_eq,
      not_true_eq_false, or_self, hint]
    congr 1
    simp [hid]
    omega
  | @encrypted p k hkey hpos hlen =>
    have htake : (p ++ padding).take 8 = p.take 8 := List.take_append_of_le_length (by omega)
    simp only [Padded.used, htake, hkey, ↓reduceIte, List.length_append]
    rw [if_neg (by omega)]
    congr 1
    omega

theorem carries_padded (h : ProxyPayload p) (hpad : padding.length ≤ 15) :
    Transport.Carries Padded.reader (frame true p padding) p := by
  have hbound := h.bounded
  have hge := h.length_ge.1
  obtain ⟨n, hn⟩ : ∃ n, n = p.length + padding.length := ⟨_, rfl⟩
  have hsmall : n ≤ maxPacket := by unfold maxPacket at *; omega
  have hlt : n < 2 ^ 31 := by unfold maxPacket at hsmall; omega
  have hint : (Int32.ofNat n).toInt = n := Int32.toInt_ofNat_of_lt hlt
  have husize : asUsize (Int32.ofNat n) = n := by rw [asUsize_eq (by omega), hint]; rfl
  have hframe : frame true p padding = LittleEndian.toBytes 4 n ++ (p ++ padding) := by
    rw [hn]
    rfl
  have hlength : Padded.lengthOf ((frame true p padding).take 4) = Int32.ofNat n := by
    rw [hframe, List.take_left' (by simp), Padded.lengthOf, LittleEndian.ofBytes_toBytes,
      Nat.mod_eq_of_lt (by omega)]
  have hfour : ¬Int32.ofNat n < 4 := by
    rw [Int32.lt_iff_toInt_lt, hint]
    show ¬((n : Int) < 4)
    omega
  have hall : (frame true p padding).length = 4 + n := by simp [hframe, hn]
  refine ⟨4, 4 + p.length, ?_, ?_⟩
  · rw [Padded.reader, Reader.run_need_of_le _ (by omega), hlength, husize,
      if_neg (by simp only [hfour, false_or]; omega), Reader.run_need_of_le _ hall.ge,
      Reader.run_done, List.take_of_length_le hall.le, hframe, List.drop_left' (by simp),
      Padded.check, used_padded h hpad]
    simp only [List.length_append, ← hn]
    rw [if_neg (by omega), if_neg (by omega)]
    simp [hn]
  · rw [hframe, List.drop_left' (by simp), Nat.add_sub_cancel_left, List.take_left]

end ProxyPayload

end Grammers
