import Grammers.DataV2
import Grammers.InboundTotal
import Grammers.PushProgress

namespace Grammers

open Checked

namespace DataV2

variable (p : Primitives)

/-- The block permutation of a key; what is no key or no block is left alone. -/
def Primitives.encryptBlock (key b : Bytes) : Bytes :=
  if h : key.length = 32 ∧ b.length = 16 then (p.aes256 ⟨key, h.1⟩ ⟨b, h.2⟩).1 else b

def Primitives.decryptBlock (key b : Bytes) : Bytes :=
  if h : key.length = 32 ∧ b.length = 16 then ((p.aes256 ⟨key, h.1⟩).symm ⟨b, h.2⟩).1 else b

variable {p}

theorem Primitives.length_encryptBlock (key b : Bytes) (hb : b.length = 16) :
    (p.encryptBlock key b).length = 16 := by
  unfold encryptBlock
  split
  next h => exact (p.aes256 ⟨key, h.1⟩ ⟨b, h.2⟩).2
  next => exact hb

theorem Primitives.length_decryptBlock (key b : Bytes) (hb : b.length = 16) :
    (p.decryptBlock key b).length = 16 := by
  unfold decryptBlock
  split
  next h => exact ((p.aes256 ⟨key, h.1⟩).symm ⟨b, h.2⟩).2
  next => exact hb

theorem Primitives.decryptBlock_encryptBlock (key b : Bytes) (hb : b.length = 16) :
    p.decryptBlock key (p.encryptBlock key b) = b := by
  by_cases hkey : key.length = 32
  · have hlength := (p.aes256 ⟨key, hkey⟩ ⟨b, hb⟩).2
    simp [encryptBlock, decryptBlock, hkey, hb, hlength]
  · simp [encryptBlock, decryptBlock, hkey]

variable (p)

def Primitives.cipher (key : Bytes) : Ige.Cipher where
  encrypt := p.encryptBlock key
  decrypt := p.decryptBlock key
  length_encrypt := length_encryptBlock key
  length_decrypt := length_decryptBlock key
  decrypt_encrypt := decryptBlock_encryptBlock key

def Primitives.crypto : Crypto where
  sha256 b := (p.sha256 b).1
  length_sha256 b := (p.sha256 b).2
  aes256 := p.cipher

end DataV2

namespace Encrypted

variable (z : Bytes → Inflated) (g : Bytes → Bytes) (p : DataV2.Primitives) (w : World)

/-- A payload is decrypted, and its plaintext is processed. -/
def deserialize (s : Encrypted) (payload : Bytes) : Parsed (List Deserialization) × Encrypted :=
  if payload.length < 20 then (.error (.error .messageBufferTooSmall), s)
  else
    match DataV2.decryptDataV2 p s.authKey payload with
    | .error _ => (.error .panic, s)
    | .ok (.error e, _) => (.error (.error (.decryptionError e)), s)
    | .ok (.ok plaintext, _) =>
      let packet := s.processPlaintext z w plaintext
      (packet.result.map (List.map Prod.snd), packet.mtp)

/-- Whatever a payload contains, reading it ends with results or with an error. -/
theorem deserialize_ne_panic (s : Encrypted) (payload : Bytes) :
    (s.deserialize z p w payload).1 ≠ .error .panic := by
  unfold deserialize
  split
  next => nofun
  next =>
    split
    next e he =>
      obtain heq | heq | ⟨_, _, _, _, _, _, _, _, heq⟩ :=
        @DataV2.decryptData_cases p s.authKey .server payload
      all_goals cases heq.symm.trans he
    next => nofun
    next plaintext _ _ =>
      have hresult := processPlaintext_ne_panic z w s plaintext
      simp only
      cases hpacket : (s.processPlaintext z w plaintext).result with
      | ok items => nofun
      | error e =>
        rw [hpacket] at hresult
        intro hpanic
        exact hresult (congrArg Except.error (Except.error.inj hpanic))

/-- What a sender uses of a session: the messages that are written and read are not told apart. -/
def mtp : Mtp Encrypted where
  requestIsValid s request := requestFits request s.receiveUpdates
  onServiceTimeout := onServiceTimeout
  push s buffer request :=
    let (id, s, buffer, _) := s.push w g buffer request
    (id, s, buffer)
  finalize s buffer :=
    let (id, s, buffer, _) := s.finalize w p.crypto buffer
    (id, s, buffer)
  deserialize s payload :=
    (reported (s.deserialize z p w payload).1 (s.deserialize_ne_panic z p w payload),
      (s.deserialize z p w payload).2)

variable {z g p w}

theorem written_of_push {s s' : Encrypted} {buffer buffer' request : Bytes} {id : MsgId}
    {written : List Written} (h : s.push w g buffer request = (some id, s', buffer', written)) :
    written ≠ [] := by
  unfold push at h
  split at h
  next => cases h
  next =>
    simp only at h
    split at h
    next => cases h
    next =>
      unfold pushRequest at h
      simp only at h
      split at h
      next => cases h
      next =>
        split at h
        next => cases h
        next =>
          obtain ⟨-, -, -, rfl⟩ := Prod.mk.inj h
          simp [serializeMsg]

theorem mtp_push {s s' : Encrypted} {buffer buffer' request : Bytes} {id : Option MsgId}
    (h : (mtp z g p w).push s buffer request = (id, s', buffer')) :
    ∃ written, s.push w g buffer request = (id, s', buffer', written) := by
  rcases hpush : s.push w g buffer request with ⟨id₁, s₁, buffer₁, written⟩
  simp only [mtp, hpush, Prod.mk.injEq] at h
  obtain ⟨rfl, rfl, rfl⟩ := h
  exact ⟨written, rfl⟩

theorem mtp_finalize {s s' : Encrypted} {buffer buffer' : Bytes} {id : Option MsgId}
    (h : (mtp z g p w).finalize s buffer = (id, s', buffer')) :
    ∃ written, s.finalize w p.crypto buffer = (id, s', buffer', written) := by
  rcases hfinalize : s.finalize w p.crypto buffer with ⟨id₁, s₁, buffer₁, written⟩
  simp only [mtp, hfinalize, Prod.mk.injEq] at h
  obtain ⟨rfl, rfl, rfl⟩ := h
  exact ⟨written, rfl⟩

theorem mtp_lawful : (mtp z g p w).Lawful where
  valid_length _ _ h := four_le_of_requestFits h
  push_some := by
    intro s buffer request id s' buffer' h
    obtain ⟨written, hpush⟩ := mtp_push h
    rw [(writes_push hpush).bytes]
    intro hnil
    exact written_of_push hpush (content_eq_nil (List.append_eq_nil_iff.mp hnil).2)
  push_none := by
    intro s buffer request s' buffer' hne h
    obtain ⟨written, hpush⟩ := mtp_push h
    rw [(writes_push hpush).bytes]
    exact List.append_ne_nil_of_left_ne_nil hne _
  finalize_some := by
    intro s buffer id s' buffer' h
    obtain ⟨written, hfinalize⟩ := mtp_finalize h
    obtain ⟨_, _, s₂, _, _, _, _, _, ⟨-, hid, -⟩ | ⟨-, -, rfl⟩⟩ := finalize_eq hfinalize
    · cases hid
    · have hkey : s₂.authKey.keyId.1 ≠ [] := by
        rw [← List.length_pos_iff, s₂.authKey.keyId.2]
        omega
      exact List.append_ne_nil_of_left_ne_nil hkey _
  finalize_none := by
    intro s buffer s' buffer' h
    obtain ⟨written, hfinalize⟩ := mtp_finalize h
    obtain ⟨_, _, _, _, hacks, hplain, _, _, ⟨hnil, -, -⟩ | ⟨-, hid, -⟩⟩ := finalize_eq hfinalize
    · obtain ⟨header, rfl⟩ := finalizePlain_bytes hplain
      have hbuffer := (List.append_eq_nil_iff.mp hnil).2
      rw [(writes_finalizeAcks hacks).bytes] at hbuffer
      exact (List.append_eq_nil_iff.mp hbuffer).1
    · cases hid

end Encrypted

end Grammers
