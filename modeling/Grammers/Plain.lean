import Grammers.Mtp

namespace Grammers

open Checked

namespace Plain

/-- One request in a packet, whose identifier is always the same. -/
def push (buffer request : Bytes) : Option MsgId × Unit × Bytes :=
  if buffer ≠ [] ∨ Encrypted.requestFits request true = false then (none, (), buffer)
  else
    (some 0, (), buffer ++ (Tl.serializeI64 0 ++ (Tl.serializeI64 0 ++
      (Tl.serializeI32 (Int32.ofNat request.length) ++ request))))

def finalize (buffer : Bytes) : Option MsgId × Unit × Bytes :=
  (if buffer ≠ [] then some 0 else none, (), buffer)

def deserialize (payload : Bytes) : Except DeserializeError (List Deserialization) :=
  if payload.length < 20 then .error .messageBufferTooSmall
  else
    let authKeyId := Int64.ofNat (LittleEndian.ofBytes (payload.take 8))
    let msgId := Int64.ofNat (LittleEndian.ofBytes ((payload.drop 8).take 8))
    let len := Int32.ofNat (LittleEndian.ofBytes ((payload.drop 16).take 4))
    if authKeyId ≠ 0 then .error (.badAuthKey authKeyId 0)
    else if msgId ≤ 0 ∨ msgId % 4 ≠ 1 then .error (.badMessageId msgId)
    else if len ≤ 0 then .error (.negativeMessageLength len)
    else if len % 4 ≠ 0 then .error (.invalidEnvelope "invalid message envelope")
    else if asUsize len > payload.length - 20 then
      .error (.tooLongMessageLength (asUsize len) (payload.length - 20))
    else .ok [.rpcResult 0 ((payload.drop 20).take (asUsize len))]

def mtp : Mtp Unit where
  requestIsValid _ request := Encrypted.requestFits request true
  onServiceTimeout := id
  push _ := push
  finalize _ := finalize
  deserialize _ payload := (deserialize payload, ())

theorem lawful : mtp.Lawful where
  valid_length _ _ h := Encrypted.four_le_of_requestFits h
  push_some := by
    intro _ buffer request id _ buffer' h
    simp only [mtp, push] at h
    split at h
    next => simp at h
    next =>
      simp only [Prod.mk.injEq] at h
      have hlen := congrArg List.length h.2.2
      intro hnil
      simp [hnil, Tl.serializeI64] at hlen
  push_none := by
    intro _ buffer request _ buffer' hne h
    simp only [mtp, push] at h
    split at h
    next =>
      simp only [Prod.mk.injEq, true_and] at h
      rwa [← h]
    next => simp at h
  finalize_some := by
    intro _ buffer id _ buffer' h
    simp only [mtp, finalize, Prod.mk.injEq] at h
    obtain ⟨hid, -, rfl⟩ := h
    split at hid
    next hne => exact hne
    next => cases hid
  finalize_none := by
    intro _ buffer _ buffer' h
    simp only [mtp, finalize, Prod.mk.injEq] at h
    obtain ⟨hid, -, -⟩ := h
    split at hid
    next => cases hid
    next hne => exact not_not.mp hne

end Plain

namespace Transport

variable (crc32 : Bytes → UInt32)

theorem Full.ne_nil_of_pack {t t' : Full} {buffer buffer' : Bytes} (hne : buffer ≠ [])
    (h : t.pack crc32 buffer = .ok (buffer', t')) : buffer' ≠ [] := by
  unfold Full.pack at h
  split at h
  next => cases h
  next =>
    obtain ⟨_, _, h⟩ := Checked.bind_eq_ok h
    obtain ⟨_, _, h⟩ := Checked.bind_eq_ok h
    obtain ⟨_, _, h⟩ := Checked.bind_eq_ok h
    obtain ⟨_, _, h⟩ := Checked.bind_eq_ok h
    obtain ⟨rfl, -⟩ := Prod.mk.inj (Except.ok.inj h)
    simp [hne]

theorem Abridged.ne_nil_of_pack {t t' : Abridged} {buffer buffer' : Bytes} (hne : buffer ≠ [])
    (h : t.pack buffer = .ok (buffer', t')) : buffer' ≠ [] := by
  unfold Abridged.pack at h
  split at h
  next => cases h
  next =>
    simp only at h
    split at h <;>
    · obtain ⟨rfl, -⟩ := Prod.mk.inj (Except.ok.inj h)
      simp [hne]

theorem Intermediate.ne_nil_of_pack {t t' : Intermediate} {buffer buffer' : Bytes}
    (hne : buffer ≠ []) (h : t.pack buffer = .ok (buffer', t')) : buffer' ≠ [] := by
  unfold Intermediate.pack at h
  split at h
  next => cases h
  next =>
    simp only at h
    split at h <;>
    · obtain ⟨rfl, -⟩ := Prod.mk.inj (Except.ok.inj h)
      simp [hne]

theorem ne_nil_of_pack {t t' : Transport} {buffer buffer' : Bytes} (hne : buffer ≠ [])
    (h : t.pack crc32 buffer = .ok (buffer', t')) : buffer' ≠ [] := by
  cases t with
  | full t =>
    obtain ⟨⟨packet, next⟩, hpack, heq⟩ := Checked.map_eq_ok h
    obtain ⟨rfl, -⟩ := Prod.mk.inj heq
    exact Full.ne_nil_of_pack crc32 hne hpack
  | abridged t =>
    obtain ⟨⟨packet, next⟩, hpack, heq⟩ := Checked.map_eq_ok h
    obtain ⟨rfl, -⟩ := Prod.mk.inj heq
    exact Abridged.ne_nil_of_pack hne hpack
  | intermediate t =>
    obtain ⟨⟨packet, next⟩, hpack, heq⟩ := Checked.map_eq_ok h
    obtain ⟨rfl, -⟩ := Prod.mk.inj heq
    exact Intermediate.ne_nil_of_pack hne hpack

def framing : Framing Transport where
  pack t buffer :=
    match t.pack crc32 buffer with
    | .ok (buffer, t) => some (t, buffer)
    | .error _ => none
  pack_ne_nil := by
    intro t buffer t' buffer' hne h
    split at h
    next buffer'' t'' hpack =>
      obtain ⟨rfl, rfl⟩ := Prod.mk.inj (Option.some.inj h)
      exact ne_nil_of_pack crc32 hne hpack
    next => cases h

end Transport

end Grammers
