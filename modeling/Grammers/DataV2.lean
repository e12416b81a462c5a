import Grammers.DequeBuffer
import Grammers.Encrypted
import Grammers.IgeMode

namespace Grammers

open Checked

namespace DataV2

/-- A byte array of a fixed length. -/
abbrev FixedBytes (n : Nat) : Type := { b : Bytes // b.length = n }

def zeros (n : Nat) : FixedBytes n := ⟨List.replicate n 0, List.length_replicate⟩

/-- A slice is copied over a range that has to be as long. -/
def copyFromSlice {n : Nat} (dst : FixedBytes n) (lo hi : Nat) (src : Bytes) : Except (Fault Unit) (FixedBytes n) :=
  if h : lo ≤ hi ∧ hi ≤ n ∧ src.length = hi - lo then
    .ok ⟨DequeBuffer.overwrite dst.1 lo src, by
      rw [DequeBuffer.length_overwrite (by rw [dst.2]; omega), dst.2]⟩
  else .error .panic

inductive Side where
  | client
  | server

def Side.x : Side → Nat
  | client => 0
  | server => 8

/-- The hash, the block permutation of each key, and the order of bytes in memory. -/
structure Primitives where
  sha256 : Bytes → FixedBytes 32
  aes256 : FixedBytes 32 → Equiv.Perm Aes.Block
  endian : Aes.Endian

section

variable (c : Primitives) (authKey : AuthKey)

def calcKey (msgKey : FixedBytes 16) (side : Side) : Except (Fault Unit) (FixedBytes 32 × FixedBytes 32) := do
  let x := side.x
  let sha256A := c.sha256 (msgKey.1 ++ (← slice authKey.data.1 x (x + 36)))
  let sha256B := c.sha256 ((← slice authKey.data.1 (40 + x) (40 + x + 36)) ++ msgKey.1)
  let buffer ← copyFromSlice (zeros 32) 0 8 (← slice sha256A.1 0 8)
  let buffer ← copyFromSlice buffer 8 (8 + 16) (← slice sha256B.1 8 (8 + 16))
  let aesKey ← copyFromSlice buffer 24 (24 + 8) (← slice sha256A.1 24 (24 + 8))
  let buffer ← copyFromSlice (zeros 32) 0 8 (← slice sha256B.1 0 8)
  let buffer ← copyFromSlice buffer 8 (8 + 16) (← slice sha256A.1 8 (8 + 16))
  let aesIv ← copyFromSlice buffer 24 (24 + 8) (← slice sha256B.1 24 (24 + 8))
  return (aesKey, aesIv)

def doEncryptDataV2 (buffer : DequeBuffer UInt8) (randomPadding : FixedBytes 32) :
    Except (Fault Unit) (DequeBuffer UInt8) := do
  let paddingLen := Encrypted.determinePaddingV2Length buffer.len
  let buffer := buffer.extend (randomPadding.1.take paddingLen)
  let side := Side.client
  let x := side.x
  let msgKeyLarge := c.sha256 ((← slice authKey.data.1 (88 + x) (88 + x + 32)) ++ buffer.asRef)
  let msgKey ← copyFromSlice (zeros 16) 0 16 (← slice msgKeyLarge.1 8 (8 + 16))
  let (key, iv) ← calcKey c authKey msgKey side
  let buffer := buffer.replace (← Aes.igeEncrypt (c.aes256 key) c.endian buffer.asRef iv)
  let buffer := buffer.extendFront msgKey.1
  return buffer.extendFront authKey.keyId.1

/-- Every byte is compared, whether or not one before it differs. -/
def difference (ours theirs : Bytes) : UInt8 :=
  (ours.zip theirs).foldl (fun difference p => difference ||| (p.1 ^^^ p.2)) 0

/-- The result, and what is left in the buffer. -/
def decryptData (side : Side) (buffer : Bytes) : Except (Fault Unit) (Except CryptoError Bytes × Bytes) :=
  let x := side.x
  if buffer.length < 24 ∨ (buffer.length - 24) % 16 ≠ 0 then .ok (.error .invalidBuffer, buffer)
  else do
    let keyId ← slice buffer 0 8
    if authKey.keyId.1 ≠ keyId then .ok (.error .authKeyMismatch, buffer)
    else do
      let msgKey ← copyFromSlice (zeros 16) 0 16 (← slice buffer 8 (8 + 16))
      let (key, iv) ← calcKey c authKey msgKey side
      let plaintext ← Aes.igeDecrypt (c.aes256 key).symm c.endian
        (← slice buffer (8 + 16) buffer.length) iv
      let buffer := DequeBuffer.overwrite buffer (8 + 16) plaintext
      let plaintext ← slice buffer (8 + 16) buffer.length
      let ourKey := c.sha256 ((← slice authKey.data.1 (88 + x) (88 + x + 32)) ++ plaintext)
      if difference msgKey.1 (← slice ourKey.1 8 (8 + 16)) ≠ 0 then
        .ok (.error .messageKeyMismatch, buffer)
      else .ok (.ok (← slice buffer (8 + 16) buffer.length), buffer)

def decryptDataV2 (buffer : Bytes) : Except (Fault Unit) (Except CryptoError Bytes × Bytes) :=
  decryptData c authKey .server buffer

end

/-! What the copies put together. -/

theorem overwrite_append {pre post slice : Bytes} {n : Nat} (h : pre.length = n) :
    DequeBuffer.overwrite (pre ++ post) n slice = pre ++ (slice ++ post.drop slice.length) := by
  subst h
  rw [DequeBuffer.overwrite, List.take_left, List.drop_append, List.drop_eq_nil_of_le (by omega),
    List.nil_append, Nat.add_sub_cancel_left]

theorem copyFromSlice_ok {n : Nat} {dst : FixedBytes n} {lo hi : Nat} {src result : Bytes}
    (h : lo ≤ hi ∧ hi ≤ n ∧ src.length = hi - lo) (hresult : DequeBuffer.overwrite dst.1 lo src = result)
    (hlen : result.length = n) : copyFromSlice dst lo hi src = .ok ⟨result, hlen⟩ := by
  subst hresult
  exact dif_pos h

theorem copy_whole {src : Bytes} (h : src.length = 16) :
    copyFromSlice (zeros 16) 0 16 src = .ok ⟨src, h⟩ := by
  refine copyFromSlice_ok ⟨by omega, by omega, by omega⟩ ?_ h
  rw [DequeBuffer.overwrite, List.take_zero, List.nil_append,
    List.drop_eq_nil_of_le (by rw [(zeros 16).2]; omega), List.append_nil]

/-- Three parts of eight, sixteen and eight bytes fill an array of 32. -/
theorem copy_parts {a b d : Bytes} (ha : a.length = 8) (hb : b.length = 16) (hd : d.length = 8) :
    ∃ one two, copyFromSlice (zeros 32) 0 8 a = .ok one ∧ copyFromSlice one 8 (8 + 16) b = .ok two ∧
      copyFromSlice two 24 (24 + 8) d = .ok ⟨a ++ (b ++ d), by simp [ha, hb, hd]⟩ := by
  have hzeros : (zeros 32).1 = [] ++ List.replicate 32 0 := rfl
  refine ⟨⟨a ++ List.replicate 24 0, by simp [ha]⟩, ⟨a ++ b ++ List.replicate 8 0, by simp [ha, hb]⟩,
    copyFromSlice_ok ⟨by omega, by omega, by omega⟩ ?_ _,
    copyFromSlice_ok ⟨by omega, by omega, by omega⟩ ?_ _,
    copyFromSlice_ok ⟨by omega, by omega, by omega⟩ ?_ _⟩
  · rw [hzeros, overwrite_append List.length_nil, List.drop_replicate, ha, List.nil_append]
  · rw [overwrite_append ha, List.drop_replicate, hb, List.append_assoc]
  · rw [overwrite_append (by simp [ha, hb]), List.drop_replicate, hd, List.append_assoc]
    simp

theorem foldl_difference (pairs : List (UInt8 × UInt8)) (acc : UInt8) :
    pairs.foldl (fun difference p => difference ||| (p.1 ^^^ p.2)) acc = 0 ↔
      acc = 0 ∧ ∀ p ∈ pairs, p.1 = p.2 := by
  induction pairs generalizing acc with
  | nil => simp
  | cons p pairs ih =>
    rw [List.foldl_cons, ih, UInt8.or_eq_zero_iff, UInt8.xor_eq_zero_iff, List.forall_mem_cons, and_assoc]

theorem difference_eq_zero {ours theirs : Bytes} (h : ours.length = theirs.length) :
    difference ours theirs = 0 ↔ ours = theirs := by
  rw [difference, foldl_difference]
  induction ours generalizing theirs with
  | nil => simp [List.length_eq_zero_iff.mp h.symm]
  | cons a ours ih =>
    cases theirs with
    | nil => cases h
    | cons b theirs =>
      have ih := ih (Nat.succ_injective h)
      rw [List.zip_cons_cons, List.forall_mem_cons, List.cons.injEq]
      tauto

variable (c : Primitives) (authKey : AuthKey)

/-- Eight, sixteen and eight bytes of two hashes. -/
def mixed (a b : FixedBytes 32) : FixedBytes 32 :=
  ⟨a.1.take 8 ++ ((b.1.drop 8).take 16 ++ (a.1.drop 24).take 8), by simp [a.2, b.2]⟩

/-- The keys as the guidelines have them: the hashes of the message key and two parts of the
authorization key, mixed. -/
theorem calcKey_eq (msgKey : FixedBytes 16) (side : Side) :
    calcKey c authKey msgKey side =
      let a := c.sha256 (msgKey.1 ++ (authKey.data.1.drop side.x).take 36)
      let b := c.sha256 ((authKey.data.1.drop (40 + side.x)).take 36 ++ msgKey.1)
      .ok (mixed a b, mixed b a) := by
  have hx : side.x ≤ 8 := by cases side <;> decide
  have hdata := authKey.data.2
  have hslice : ∀ lo, lo + 36 ≤ 256 → slice (ε := Unit) authKey.data.1 lo (lo + 36) =
      .ok ((authKey.data.1.drop lo).take 36) := by
    intro lo hlo
    rw [slice_ok (by omega) (by omega), Nat.add_sub_cancel_left]
  have hparts : ∀ (a b : FixedBytes 32), ∃ one two,
      slice (ε := Unit) a.1 0 8 = .ok (a.1.take 8) ∧
      slice (ε := Unit) b.1 8 (8 + 16) = .ok ((b.1.drop 8).take 16) ∧
      slice (ε := Unit) a.1 24 (24 + 8) = .ok ((a.1.drop 24).take 8) ∧
      copyFromSlice (zeros 32) 0 8 (a.1.take 8) = .ok one ∧
      copyFromSlice one 8 (8 + 16) ((b.1.drop 8).take 16) = .ok two ∧
      copyFromSlice two 24 (24 + 8) ((a.1.drop 24).take 8) = .ok (mixed a b) := by
    intro a b
    have ha := a.2
    have hb := b.2
    obtain ⟨one, two, h1, h2, h3⟩ := @copy_parts (a.1.take 8) ((b.1.drop 8).take 16)
      ((a.1.drop 24).take 8) (by simp [ha]) (by simp [hb]) (by simp [ha])
    refine ⟨one, two, ?_, ?_, ?_, h1, h2, h3⟩
    · rw [slice_ok (by omega) (by omega)]
      rfl
    · rw [slice_ok (by omega) (by omega)]
    · rw [slice_ok (by omega) (by omega)]
  simp only [calcKey, hslice _ (show side.x + 36 ≤ 256 by omega),
    hslice _ (show 40 + side.x + 36 ≤ 256 by omega), bind, Except.bind]
  obtain ⟨one, two, s1, s2, s3, h1, h2, h3⟩ :=
    hparts (c.sha256 (msgKey.1 ++ (authKey.data.1.drop side.x).take 36))
      (c.sha256 ((authKey.data.1.drop (40 + side.x)).take 36 ++ msgKey.1))
  obtain ⟨one', two', s1', s2', s3', h1', h2', h3'⟩ :=
    hparts (c.sha256 ((authKey.data.1.drop (40 + side.x)).take 36 ++ msgKey.1))
      (c.sha256 (msgKey.1 ++ (authKey.data.1.drop side.x).take 36))
  simp only [s1, s2, s3, h1, h2, h3, s1', s2', s3', h1', h2', h3']
  rfl

variable {c authKey} {side : Side} {buffer : Bytes}

/-- The key of a message: the middle of a hash of a part of the authorization key and the plaintext. -/
def messageKey (c : Primitives) (authKey : AuthKey) (side : Side) (plaintext : Bytes) : FixedBytes 16 :=
  ⟨((c.sha256 ((authKey.data.1.drop (88 + side.x)).take 32 ++ plaintext)).1.drop 8).take 16, by
    simp [(c.sha256 _).2]⟩

theorem slice_authKey (side : Side) : slice (ε := Unit) authKey.data.1 (88 + side.x) (88 + side.x + 32) =
    .ok ((authKey.data.1.drop (88 + side.x)).take 32) := by
  have hx : side.x ≤ 8 := by cases side <;> decide
  rw [slice_ok (by omega) (by rw [authKey.data.2]; omega), Nat.add_sub_cancel_left]

theorem slice_messageKey (plaintext : Bytes) :
    slice (ε := Unit) (c.sha256 ((authKey.data.1.drop (88 + side.x)).take 32 ++ plaintext)).1 8 (8 + 16) =
      .ok (messageKey c authKey side plaintext).1 := by
  rw [slice_ok (by omega) (by rw [(c.sha256 _).2]; omega)]
  rfl

/-- A buffer of a right length and key is decrypted, and then the key of its message is compared. -/
theorem decryptData_eq (hlen : 24 ≤ buffer.length) (hmod : (buffer.length - 24) % 16 = 0)
    (hkey : buffer.take 8 = authKey.keyId.1) :
    ∃ (msgKey : FixedBytes 16) (key iv : FixedBytes 32) (plaintext : Bytes),
      msgKey.1 = (buffer.drop 8).take 16 ∧ calcKey c authKey msgKey side = .ok (key, iv) ∧
      Aes.igeDecrypt (c.aes256 key).symm c.endian (buffer.drop 24) iv = .ok plaintext ∧
      Aes.igeEncrypt (c.aes256 key) c.endian plaintext iv = .ok (buffer.drop 24) ∧
      decryptData c authKey side buffer = .ok
        (if msgKey = messageKey c authKey side plaintext then .ok plaintext
          else .error .messageKeyMismatch, buffer.take 24 ++ plaintext) := by
  have hbody : (buffer.drop 24).length % 16 = 0 := by rwa [List.length_drop]
  have hmsg : ((buffer.drop 8).take 16).length = 16 := by simp; omega
  obtain ⟨plaintext, hdecrypt, hencrypt⟩ := @Aes.igeDecrypt_ok c.endian
    (c.aes256 (mixed
      (c.sha256 ((buffer.drop 8).take 16 ++ (authKey.data.1.drop side.x).take 36))
      (c.sha256 ((authKey.data.1.drop (40 + side.x)).take 36 ++ (buffer.drop 8).take 16)))) _
    (mixed (c.sha256 ((authKey.data.1.drop (40 + side.x)).take 36 ++ (buffer.drop 8).take 16))
      (c.sha256 ((buffer.drop 8).take 16 ++ (authKey.data.1.drop side.x).take 36))) hbody
  refine ⟨⟨_, hmsg⟩, _, _, plaintext, rfl, calcKey_eq _ _ _ _, hdecrypt, hencrypt, ?_⟩
  have hlength := Aes.length_igeEncrypt _ _ hencrypt
  rw [List.length_drop] at hlength
  have hover : DequeBuffer.overwrite buffer (8 + 16) plaintext = buffer.take 24 ++ plaintext := by
    rw [DequeBuffer.overwrite, List.drop_eq_nil_of_le (by omega), List.append_nil]
  have hrest : slice (ε := Unit) (buffer.take 24 ++ plaintext) (8 + 16)
      (buffer.take 24 ++ plaintext).length = .ok plaintext := by
    have htake : (buffer.take 24).length = 24 := by simp; omega
    rw [slice_ok (by simp; omega) le_rfl, List.drop_left' htake, List.take_of_length_le (by simp; omega)]
  have hid : slice (ε := Unit) buffer 0 8 = .ok authKey.keyId.1 := by
    rw [slice_ok (by omega) (by omega), ← hkey]
    rfl
  have hpart : slice (ε := Unit) buffer 8 (8 + 16) = .ok ((buffer.drop 8).take 16) := by
    rw [slice_ok (by omega) (by omega)]
  have hcipher : slice (ε := Unit) buffer (8 + 16) buffer.length = .ok (buffer.drop 24) := by
    rw [slice_ok (by omega) le_rfl, List.take_of_length_le (by simp)]
  have hvalid : ¬(buffer.length < 24 ∨ (buffer.length - 24) % 16 ≠ 0) := by omega
  simp only [decryptData, if_neg hvalid, hid, hpart, hcipher, copy_whole hmsg, calcKey_eq, hdecrypt, hover,
    hrest, slice_authKey, slice_messageKey, bind, Except.bind, ne_eq, not_true_eq_false, if_false]
  have hsame : difference ((buffer.drop 8).take 16) (messageKey c authKey side plaintext).1 = 0 ↔
      (⟨_, hmsg⟩ : FixedBytes 16) = messageKey c authKey side plaintext := by
    rw [difference_eq_zero (by rw [hmsg, (messageKey _ _ _ _).2]), Subtype.ext_iff]
  by_cases h : (⟨_, hmsg⟩ : FixedBytes 16) = messageKey c authKey side plaintext
  · rw [if_neg (not_not.mpr (hsame.mpr h)), if_pos h]
  · rw [if_pos (mt hsame.mp h), if_neg h]

/-- A buffer is refused as it is, or decrypted with the key that its message has. -/
theorem decryptData_cases :
    decryptData c authKey side buffer = .ok (.error .invalidBuffer, buffer) ∨
      decryptData c authKey side buffer = .ok (.error .authKeyMismatch, buffer) ∨
      ∃ (msgKey : FixedBytes 16) (key iv : FixedBytes 32) (plaintext : Bytes),
        buffer = authKey.keyId.1 ++ (msgKey.1 ++ buffer.drop 24) ∧
        calcKey c authKey msgKey side = .ok (key, iv) ∧ plaintext.length % 16 = 0 ∧
        Aes.igeEncrypt (c.aes256 key) c.endian plaintext iv = .ok (buffer.drop 24) ∧
        decryptData c authKey side buffer = .ok
          (if msgKey = messageKey c authKey side plaintext then .ok plaintext
            else .error .messageKeyMismatch, buffer.take 24 ++ plaintext) := by
  by_cases hvalid : buffer.length < 24 ∨ (buffer.length - 24) % 16 ≠ 0
  · exact Or.inl (if_pos hvalid)
  · have hid : slice (ε := Unit) buffer 0 8 = .ok (buffer.take 8) := by
      rw [slice_ok (by omega) (by omega)]
      rfl
    by_cases hkey : buffer.take 8 = authKey.keyId.1
    · obtain ⟨msgKey, key, iv, plaintext, hmsg, hcalc, -, hencrypt, heq⟩ :=
        @decryptData_eq c authKey side buffer (by omega) (by omega) hkey
      refine Or.inr (Or.inr ⟨msgKey, key, iv, plaintext, ?_, hcalc, ?_, hencrypt, heq⟩)
      · rw [hmsg, ← hkey, show buffer.drop 24 = (buffer.drop 8).drop 16 by rw [List.drop_drop],
          List.take_append_drop, List.take_append_drop]
      · have hlength := Aes.length_igeEncrypt _ _ hencrypt
        rw [List.length_drop] at hlength
        omega
    · refine Or.inr (Or.inl ?_)
      rw [decryptData]
      simp only [if_neg hvalid, hid, bind, Except.bind]
      exact if_pos (Ne.symm hkey)

/-- What the owner of a key can send from a side is accepted. -/
theorem decryptData_of_encrypted {msgKey : FixedBytes 16} {key iv : FixedBytes 32} {plaintext body : Bytes}
    (hcalc : calcKey c authKey msgKey side = .ok (key, iv))
    (hencrypt : Aes.igeEncrypt (c.aes256 key) c.endian plaintext iv = .ok body)
    (hkey : msgKey = messageKey c authKey side plaintext) :
    decryptData c authKey side (authKey.keyId.1 ++ (msgKey.1 ++ body)) =
      .ok (.ok plaintext, authKey.keyId.1 ++ (msgKey.1 ++ plaintext)) := by
  have hid := authKey.keyId.2
  have hmsg := msgKey.2
  have hwhole := Aes.length_igeEncrypt _ _ hencrypt
  have hmod : plaintext.length % 16 = 0 := by
    by_contra hmod
    rw [Aes.igeEncrypt, if_pos hmod] at hencrypt
    cases hencrypt
  have hdrop8 : (authKey.keyId.1 ++ (msgKey.1 ++ body)).drop 8 = msgKey.1 ++ body := List.drop_left' hid
  have htake24 : (authKey.keyId.1 ++ (msgKey.1 ++ body)).take 24 = authKey.keyId.1 ++ msgKey.1 := by
    rw [← List.append_assoc]
    exact List.take_left' (by simp [hid, hmsg])
  have hdrop24 : (authKey.keyId.1 ++ (msgKey.1 ++ body)).drop 24 = body := by
    rw [← List.append_assoc]
    exact List.drop_left' (by simp [hid, hmsg])
  obtain ⟨msgKey', key', iv', plaintext', hmsg', hcalc', hdecrypt', -, heq⟩ :=
    @decryptData_eq c authKey side (authKey.keyId.1 ++ (msgKey.1 ++ body)) (by simp [hid, hmsg]; omega)
      (by simp only [List.length_append, hid, hmsg]; omega) (List.take_left' hid)
  rw [hdrop8, List.take_left' hmsg] at hmsg'
  obtain rfl : msgKey' = msgKey := Subtype.ext hmsg'
  obtain ⟨rfl, rfl⟩ := Prod.mk.inj (Except.ok.inj (hcalc.symm.trans hcalc'))
  obtain ⟨body', hbody', hback, -⟩ := @Aes.igeEncrypt_ok c.endian (c.aes256 key) plaintext iv hmod
  obtain rfl : body = body' := Except.ok.inj (hencrypt.symm.trans hbody')
  rw [hdrop24] at hdecrypt'
  obtain rfl : plaintext = plaintext' := Except.ok.inj (hback.symm.trans hdecrypt')
  rw [heq, if_pos hkey, htake24, List.append_assoc]

/-- The client's packet is the identifier of the key, the key of the message, and the plaintext with
its padding, encrypted. -/
theorem doEncryptDataV2_ok (d : DequeBuffer UInt8) (randomPadding : FixedBytes 32) :
    ∃ out plaintext key iv body, doEncryptDataV2 c authKey d randomPadding = .ok out ∧
      plaintext = d.asRef ++ randomPadding.1.take (Encrypted.determinePaddingV2Length d.asRef.length) ∧
      calcKey c authKey (messageKey c authKey .client plaintext) .client = .ok (key, iv) ∧
      Aes.igeEncrypt (c.aes256 key) c.endian plaintext iv = .ok body ∧
      out.asRef = authKey.keyId.1 ++ ((messageKey c authKey .client plaintext).1 ++ body) := by
  have hlen := DequeBuffer.length_asRef d
  have hpadding : Encrypted.determinePaddingV2Length d.len ≤ 32 := by
    rw [Encrypted.determinePaddingV2Length]
    omega
  have hmod : (d.asRef ++ randomPadding.1.take (Encrypted.determinePaddingV2Length d.len)).length % 16 = 0 := by
    rw [List.length_append, List.length_take, randomPadding.2, Nat.min_eq_left hpadding, hlen,
      Encrypted.determinePaddingV2Length]
    omega
  obtain ⟨plaintext, hplaintext⟩ : ∃ plaintext,
      plaintext = d.asRef ++ randomPadding.1.take (Encrypted.determinePaddingV2Length d.len) := ⟨_, rfl⟩
  rw [← hplaintext] at hmod
  obtain ⟨key, iv, hcalc⟩ : ∃ key iv,
      calcKey c authKey (messageKey c authKey .client plaintext) .client = .ok (key, iv) :=
    ⟨_, _, calcKey_eq _ _ _ _⟩
  obtain ⟨body, hbody, -⟩ := @Aes.igeEncrypt_ok c.endian (c.aes256 key) plaintext iv hmod
  have hkey : copyFromSlice (zeros 16) 0 16 (messageKey c authKey .client plaintext).1 =
      .ok (messageKey c authKey .client plaintext) := copy_whole (messageKey c authKey .client plaintext).2
  refine ⟨(((d.extend (randomPadding.1.take (Encrypted.determinePaddingV2Length d.len))).replace
    body).extendFront (messageKey c authKey .client plaintext).1).extendFront authKey.keyId.1,
    plaintext, key, iv, body, ?_, hlen ▸ hplaintext, hcalc, hbody, ?_⟩
  · simp only [doEncryptDataV2, DequeBuffer.asRef_extend, ← hplaintext, slice_authKey, slice_messageKey,
      hkey, hcalc, hbody, bind, Except.bind]
    rfl
  · rw [DequeBuffer.asRef_extendFront, DequeBuffer.asRef_extendFront, DequeBuffer.asRef_replace]

/-- Decryption accepts what the server can produce and nothing else, and leaves a buffer that it does
not try to decrypt as it is; with the offsets of the client it gives back what was encrypted. -/
theorem decrypts_what_peer_produces (c : Primitives) (authKey : AuthKey) :
    (∀ buffer, (∃ r, decryptDataV2 c authKey buffer = .ok r) ∧
      (∀ p, (∃ after, decryptDataV2 c authKey buffer = .ok (.ok p, after)) ↔
        p.length % 16 = 0 ∧ ∃ (msgKey : FixedBytes 16) (key iv : FixedBytes 32) (body : Bytes),
          calcKey c authKey msgKey .server = .ok (key, iv) ∧
          Aes.igeEncrypt (c.aes256 key) c.endian p iv = .ok body ∧
          buffer = authKey.keyId.1 ++ (msgKey.1 ++ body) ∧
          msgKey.1 = ((c.sha256 ((authKey.data.1.drop 96).take 32 ++ p)).1.drop 8).take 16) ∧
      ∀ e after, decryptDataV2 c authKey buffer = .ok (.error e, after) →
        e = .invalidBuffer ∨ e = .authKeyMismatch → after = buffer) ∧
    ∀ (d : DequeBuffer UInt8) (randomPadding : FixedBytes 32), ∃ out k after,
      doEncryptDataV2 c authKey d randomPadding = .ok out ∧ 12 ≤ k ∧ k ≤ 27 ∧
        decryptData c authKey .client out.asRef = .ok (.ok (d.asRef ++ randomPadding.1.take k), after) := by
  refine ⟨fun buffer => ⟨?_, fun p => ⟨?_, ?_⟩, ?_⟩, fun d randomPadding => ?_⟩
  · obtain heq | heq | ⟨_, _, _, _, _, _, _, _, heq⟩ := @decryptData_cases c authKey .server buffer
    all_goals exact ⟨_, heq⟩
  · rintro ⟨after, hok⟩
    obtain heq | heq | ⟨msgKey, key, iv, plaintext, hbuffer, hcalc, hmod, hencrypt, heq⟩ :=
      @decryptData_cases c authKey .server buffer
    · cases heq.symm.trans hok
    · cases heq.symm.trans hok
    · have hresult := (Prod.mk.inj (Except.ok.inj (heq.symm.trans hok))).1
      split at hresult
      next hkey =>
        obtain rfl : plaintext = p := Except.ok.inj hresult
        exact ⟨hmod, msgKey, key, iv, _, hcalc, hencrypt, hbuffer, congrArg Subtype.val hkey⟩
      next => cases hresult
  · rintro ⟨-, msgKey, key, iv, body, hcalc, hencrypt, rfl, hkey⟩
    exact ⟨_, decryptData_of_encrypted hcalc hencrypt (Subtype.ext hkey)⟩
  · intro e after herror he
    obtain heq | heq | ⟨_, _, _, _, _, _, _, _, heq⟩ := @decryptData_cases c authKey .server buffer
    · exact (Prod.mk.inj (Except.ok.inj (heq.symm.trans herror))).2.symm
    · exact (Prod.mk.inj (Except.ok.inj (heq.symm.trans herror))).2.symm
    · have hresult := (Prod.mk.inj (Except.ok.inj (heq.symm.trans herror))).1
      split at hresult
      next => cases hresult
      next =>
        cases hresult
        rcases he with he | he <;> cases he
  · obtain ⟨out, plaintext, key, iv, body, hout, rfl, hcalc, hbody, hbytes⟩ :=
      @doEncryptDataV2_ok c authKey d randomPadding
    refine ⟨out, _, _, hout, ?_, ?_, hbytes ▸ decryptData_of_encrypted hcalc hbody rfl⟩
    · exact Nat.le_add_right _ _
    · rw [Encrypted.determinePaddingV2Length]
      omega

end DataV2

end Grammers
