import Mathlib.Logic.Equiv.Defs
import Grammers.Checked
import Grammers.Ige
import Grammers.TlPrimitives

namespace Grammers

open Checked

namespace Aes

abbrev Block : Type := { b : Bytes // b.length = 16 }

abbrev Iv : Type := { b : Bytes // b.length = 32 }

/-- The order of the bytes of a number in memory. -/
inductive Endian where
  | little
  | big

def fromNeBytes (e : Endian) (b : Block) : BitVec 128 :=
  match e with
  | .little => BitVec.ofNat 128 (LittleEndian.ofBytes b.1)
  | .big => BitVec.ofNat 128 (BigEndian.ofBytes b.1)

def toNeBytes (e : Endian) (x : BitVec 128) : Block :=
  match e with
  | .little => ⟨LittleEndian.toBytes 16 x.toNat, LittleEndian.length_toBytes _ _⟩
  | .big => ⟨BigEndian.toBytes 16 x.toNat, BigEndian.length_toBytes _ _⟩

/-- The whole blocks of a buffer. -/
def asChunks (buffer : Bytes) : List Block :=
  if h : 16 ≤ buffer.length then
    ⟨buffer.take 16, by simp [h]⟩ :: asChunks (buffer.drop 16)
  else []
termination_by buffer.length
decreasing_by
  rw [List.length_drop]
  omega

def ofChunks (chunks : List Block) : Bytes := chunks.flatMap Subtype.val

/-- The halves of the initial vector: the ciphertext and the plaintext before the first block. -/
def chainingBlocks (iv : Iv) : Block × Block :=
  (⟨iv.1.take 16, by simp [iv.2]⟩, ⟨iv.1.drop 16, by simp [iv.2]⟩)

def chainingValues (e : Endian) (iv : Iv) : BitVec 128 × BitVec 128 :=
  (fromNeBytes e (chainingBlocks iv).1, fromNeBytes e (chainingBlocks iv).2)

variable (backend : Block → Block) (e : Endian)

/-- One pass over the blocks, with the chaining values in registers. -/
def encryptChunks : BitVec 128 → BitVec 128 → List Block → List Block
  | _, _, [] => []
  | iv1, iv2, chunk :: rest =>
    let plaintext := fromNeBytes e chunk
    let block := backend (toNeBytes e (plaintext ^^^ iv1))
    let ciphertext := fromNeBytes e block ^^^ iv2
    toNeBytes e ciphertext :: encryptChunks ciphertext plaintext rest

def decryptChunks : BitVec 128 → BitVec 128 → List Block → List Block
  | _, _, [] => []
  | iv1, iv2, chunk :: rest =>
    let ciphertext := fromNeBytes e chunk
    let block := backend (toNeBytes e (ciphertext ^^^ iv2))
    let plaintext := fromNeBytes e block ^^^ iv1
    toNeBytes e plaintext :: decryptChunks ciphertext plaintext rest

def igeEncrypt (buffer : Bytes) (iv : Iv) : Except (Fault Unit) Bytes :=
  if buffer.length % 16 ≠ 0 then .error .panic
  else .ok (ofChunks
    (encryptChunks backend e (chainingValues e iv).1 (chainingValues e iv).2 (asChunks buffer)))

def igeDecrypt (buffer : Bytes) (iv : Iv) : Except (Fault Unit) Bytes :=
  if buffer.length % 16 ≠ 0 then .error .panic
  else .ok (ofChunks
    (decryptChunks backend e (chainingValues e iv).1 (chainingValues e iv).2 (asChunks buffer)))

def xorBlock (a b : Block) : Block := ⟨Ige.xor a.1 b.1, Ige.length_xor a.2 b.2⟩

/-- The loop of the tests, a block at a time. -/
def referenceEncryptChunks : Block → Block → Block → List Block → List Block
  | _, _, _, [] => []
  | iv1, iv2, _, block :: rest =>
    let nextIv2 := block
    let block := xorBlock block iv1
    let block := backend block
    let block := xorBlock block iv2
    block :: referenceEncryptChunks block nextIv2 iv2 rest

def referenceDecryptChunks : Block → Block → Block → List Block → List Block
  | _, _, _, [] => []
  | iv1, iv2, _, block :: rest =>
    let nextIv1 := block
    let block := xorBlock block iv2
    let block := backend block
    let block := xorBlock block iv1
    block :: referenceDecryptChunks nextIv1 block iv1 rest

def zeroBlock : Block := ⟨List.replicate 16 0, rfl⟩

/-- Each chunk is copied whole into sixteen bytes, so that a shorter last one panics. -/
def referenceEncrypt (buffer : Bytes) (iv : Iv) : Except (Fault Unit) Bytes :=
  if buffer.length % 16 ≠ 0 then .error .panic
  else .ok (ofChunks (referenceEncryptChunks backend (chainingBlocks iv).1 (chainingBlocks iv).2
    zeroBlock (asChunks buffer)))

def referenceDecrypt (buffer : Bytes) (iv : Iv) : Except (Fault Unit) Bytes :=
  if buffer.length % 16 ≠ 0 then .error .panic
  else .ok (ofChunks (referenceDecryptChunks backend (chainingBlocks iv).1 (chainingBlocks iv).2
    zeroBlock (asChunks buffer)))

/-! Numbers and their bytes are mixed alike. -/

theorem ofBytes_xor {a b : Bytes} (h : a.length = b.length) :
    BigEndian.ofBytes (Ige.xor a b) = BigEndian.ofBytes a ^^^ BigEndian.ofBytes b := by
  induction a generalizing b with
  | nil =>
    obtain rfl := List.length_eq_zero_iff.mp h.symm
    rfl
  | cons x xs ih =>
    cases b with
    | nil => simp at h
    | cons y ys =>
      have hlength : xs.length = ys.length := Nat.succ.inj h
      have hpow : 256 ^ ys.length = 2 ^ (8 * ys.length) := by
        rw [pow_mul]
        rfl
      have hx := BigEndian.ofBytes_lt xs
      have hy := BigEndian.ofBytes_lt ys
      have hxy := BigEndian.ofBytes_lt (Ige.xor xs ys)
      rw [Ige.xor, List.length_zipWith, hlength, Nat.min_self] at hxy
      have hrest := ih hlength
      simp only [Ige.xor, List.zipWith_cons_cons, BigEndian.ofBytes, List.length_zipWith, hlength,
        Nat.min_self] at hrest hx ⊢
      rw [hpow] at hx hy hxy ⊢
      refine Nat.eq_of_testBit_eq fun j => ?_
      rw [Nat.testBit_xor, Nat.mul_comm, Nat.testBit_two_pow_mul_add _ hxy, Nat.mul_comm x.toNat,
        Nat.testBit_two_pow_mul_add _ hx, Nat.mul_comm y.toNat, Nat.testBit_two_pow_mul_add _ hy,
        hrest, UInt8.toNat_xor]
      split
      · rw [Nat.testBit_xor]
      · rw [Nat.testBit_xor]

theorem toNeBytes_fromNeBytes (b : Block) : toNeBytes e (fromNeBytes e b) = b := by
  obtain ⟨bytes, hbytes⟩ := b
  apply Subtype.ext
  cases e with
  | little =>
    have hlt := LittleEndian.ofBytes_lt bytes
    have hread := LittleEndian.toBytes_ofBytes bytes
    rw [hbytes] at hlt hread
    show LittleEndian.toBytes 16 (BitVec.ofNat 128 (LittleEndian.ofBytes bytes)).toNat = bytes
    rw [BitVec.toNat_ofNat, Nat.mod_eq_of_lt (show _ < 2 ^ 128 from hlt), hread]
  | big =>
    have hlt := BigEndian.ofBytes_lt bytes
    have hread := BigEndian.toBytes_ofBytes bytes
    rw [hbytes] at hlt hread
    show BigEndian.toBytes 16 (BitVec.ofNat 128 (BigEndian.ofBytes bytes)).toNat = bytes
    rw [BitVec.toNat_ofNat, Nat.mod_eq_of_lt (show _ < 2 ^ 128 from hlt), hread]

theorem fromNeBytes_xorBlock (a b : Block) :
    fromNeBytes e (xorBlock a b) = fromNeBytes e a ^^^ fromNeBytes e b := by
  obtain ⟨a, ha⟩ := a
  obtain ⟨b, hb⟩ := b
  have hlength : a.length = b.length := ha.trans hb.symm
  apply BitVec.eq_of_toNat_eq
  cases e with
  | little =>
    have hreverse : (Ige.xor a b).reverse = Ige.xor a.reverse b.reverse :=
      List.reverse_zipWith hlength
    have hxor := ofBytes_xor (show a.reverse.length = b.reverse.length by simp [hlength])
    show (BitVec.ofNat 128 (BigEndian.ofBytes (Ige.xor a b).reverse)).toNat = _
    rw [hreverse, hxor, BitVec.toNat_ofNat, Nat.xor_mod_two_pow, BitVec.toNat_xor]
    rfl
  | big =>
    show (BitVec.ofNat 128 (BigEndian.ofBytes (Ige.xor a b))).toNat = _
    rw [ofBytes_xor hlength, BitVec.toNat_ofNat, Nat.xor_mod_two_pow, BitVec.toNat_xor]
    rfl

theorem xorBlock_xorBlock (a b : Block) : xorBlock (xorBlock a b) b = a :=
  Subtype.ext (Ige.xor_xor (a.2.trans b.2.symm))

/-! The registers hold what the blocks of the reference hold. -/

theorem encryptChunks_eq_reference (iv1 iv2 next : Block) (chunks : List Block) :
    encryptChunks backend e (fromNeBytes e iv1) (fromNeBytes e iv2) chunks =
      referenceEncryptChunks backend iv1 iv2 next chunks := by
  induction chunks generalizing iv1 iv2 next with
  | nil => rfl
  | cons chunk rest ih =>
    simp only [encryptChunks, referenceEncryptChunks, ← fromNeBytes_xorBlock, toNeBytes_fromNeBytes]
    rw [ih _ _ iv2]

theorem decryptChunks_eq_reference (iv1 iv2 next : Block) (chunks : List Block) :
    decryptChunks backend e (fromNeBytes e iv1) (fromNeBytes e iv2) chunks =
      referenceDecryptChunks backend iv1 iv2 next chunks := by
  induction chunks generalizing iv1 iv2 next with
  | nil => rfl
  | cons chunk rest ih =>
    simp only [decryptChunks, referenceDecryptChunks, ← fromNeBytes_xorBlock, toNeBytes_fromNeBytes]
    rw [ih _ _ iv1]

/-! A buffer and its blocks. -/

theorem asChunks_ofChunks (chunks : List Block) : asChunks (ofChunks chunks) = chunks := by
  induction chunks with
  | nil =>
    rw [asChunks, dif_neg (by simp [ofChunks])]
  | cons chunk rest ih =>
    have hsplit : ofChunks (chunk :: rest) = chunk.1 ++ ofChunks rest := rfl
    have hlong : 16 ≤ (ofChunks (chunk :: rest)).length := by
      rw [hsplit, List.length_append, chunk.2]
      omega
    rw [asChunks, dif_pos hlong]
    simp only [hsplit, List.take_left' chunk.2, List.drop_left' chunk.2, ih]

theorem ofChunks_asChunks {buffer : Bytes} (h : buffer.length % 16 = 0) :
    ofChunks (asChunks buffer) = buffer := by
  induction hn : buffer.length / 16 generalizing buffer with
  | zero =>
    obtain rfl := List.length_eq_zero_iff.mp (show buffer.length = 0 by omega)
    rw [asChunks, dif_neg (by simp)]
    rfl
  | succ n ih =>
    rw [asChunks, dif_pos (by omega)]
    have hrest := ih (show (buffer.drop 16).length % 16 = 0 by rw [List.length_drop]; omega)
      (by rw [List.length_drop]; omega)
    show buffer.take 16 ++ ofChunks (asChunks (buffer.drop 16)) = buffer
    rw [hrest, List.take_append_drop]

theorem length_ofChunks (chunks : List Block) : (ofChunks chunks).length = 16 * chunks.length := by
  induction chunks with
  | nil => rfl
  | cons chunk rest ih =>
    show (chunk.1 ++ ofChunks rest).length = _
    rw [List.length_append, ih, chunk.2, List.length_cons]
    omega

/-! A permutation of blocks, and the one that undoes it. -/

variable (E : Equiv.Perm Block)

theorem decrypt_encrypt (iv1 iv2 next next' : Block) (chunks : List Block) :
    referenceDecryptChunks E.symm iv1 iv2 next
      (referenceEncryptChunks E iv1 iv2 next' chunks) = chunks := by
  induction chunks generalizing iv1 iv2 next next' with
  | nil => rfl
  | cons chunk rest ih =>
    simp only [referenceEncryptChunks, referenceDecryptChunks, xorBlock_xorBlock,
      Equiv.symm_apply_apply, ih]

theorem encrypt_decrypt (iv1 iv2 next next' : Block) (chunks : List Block) :
    referenceEncryptChunks E iv1 iv2 next
      (referenceDecryptChunks E.symm iv1 iv2 next' chunks) = chunks := by
  induction chunks generalizing iv1 iv2 next next' with
  | nil => rfl
  | cons chunk rest ih =>
    simp only [referenceEncryptChunks, referenceDecryptChunks, xorBlock_xorBlock,
      Equiv.apply_symm_apply, ih]

theorem length_referenceEncryptChunks (iv1 iv2 next : Block) (chunks : List Block) :
    (referenceEncryptChunks backend iv1 iv2 next chunks).length = chunks.length := by
  induction chunks generalizing iv1 iv2 next with
  | nil => rfl
  | cons chunk rest ih => simp [referenceEncryptChunks, ih]

/-- A block of the output is made of the block of the input and of what came before both. -/
theorem getElem_referenceEncryptChunks (iv1 iv2 next : Block) (chunks : List Block) {i : Nat}
    {plaintext previous1 previous2 : Block} (hplaintext : chunks[i]? = some plaintext)
    (hprevious1 : (iv1 :: referenceEncryptChunks backend iv1 iv2 next chunks)[i]? = some previous1)
    (hprevious2 : (iv2 :: chunks)[i]? = some previous2) :
    (referenceEncryptChunks backend iv1 iv2 next chunks)[i]? =
      some (xorBlock (backend (xorBlock plaintext previous1)) previous2) := by
  induction chunks generalizing iv1 iv2 next i with
  | nil => cases hplaintext
  | cons chunk rest ih =>
    cases i with
    | zero =>
      cases hplaintext
      cases hprevious1
      cases hprevious2
      rfl
    | succ i => exact ih _ _ _ hplaintext hprevious1 hprevious2

/-! Whole buffers. -/

/-- Each block of the ciphertext is `E (m i ^ c (i - 1)) ^ m (i - 1)`, with the halves of the
initial vector before the first. -/
def Chained (iv : Iv) (plaintext ciphertext : List Block) : Prop :=
  ciphertext.length = plaintext.length ∧ ∀ (i : Nat) (m c₀ m₀ : Block),
    plaintext[i]? = some m → ((chainingBlocks iv).1 :: ciphertext)[i]? = some c₀ →
    ((chainingBlocks iv).2 :: plaintext)[i]? = some m₀ →
    ciphertext[i]? = some (xorBlock (backend (xorBlock m c₀)) m₀)

theorem igeEncrypt_eq_reference (buffer : Bytes) (iv : Iv) :
    igeEncrypt backend e buffer iv = referenceEncrypt backend buffer iv := by
  unfold igeEncrypt referenceEncrypt chainingValues
  rw [encryptChunks_eq_reference backend e _ _ zeroBlock]

theorem igeDecrypt_eq_reference (buffer : Bytes) (iv : Iv) :
    igeDecrypt backend e buffer iv = referenceDecrypt backend buffer iv := by
  unfold igeDecrypt referenceDecrypt chainingValues
  rw [decryptChunks_eq_reference backend e _ _ zeroBlock]

theorem mod_length_ofChunks (chunks : List Block) : (ofChunks chunks).length % 16 = 0 := by
  rw [length_ofChunks]
  omega

/-- A ciphertext of whole blocks is decrypted to what was encrypted, and its blocks are chained. -/
theorem igeEncrypt_ok {buffer : Bytes} {iv : Iv} (h : buffer.length % 16 = 0) :
    ∃ c, igeEncrypt E e buffer iv = .ok c ∧ igeDecrypt E.symm e c iv = .ok buffer ∧
      Chained E iv (asChunks buffer) (asChunks c) := by
  rw [igeEncrypt_eq_reference, referenceEncrypt, if_neg (not_not.mpr h)]
  refine ⟨_, rfl, ?_, ?_, ?_⟩
  · rw [igeDecrypt_eq_reference, referenceDecrypt, if_neg (not_not.mpr (mod_length_ofChunks _)),
      asChunks_ofChunks, decrypt_encrypt, ofChunks_asChunks h]
  · rw [asChunks_ofChunks, length_referenceEncryptChunks]
  · intro i m c₀ m₀ hm hc₀ hm₀
    rw [asChunks_ofChunks] at hc₀ ⊢
    exact getElem_referenceEncryptChunks E _ _ _ _ hm hc₀ hm₀

theorem igeDecrypt_ok {buffer : Bytes} {iv : Iv} (h : buffer.length % 16 = 0) :
    ∃ m, igeDecrypt E.symm e buffer iv = .ok m ∧ igeEncrypt E e m iv = .ok buffer := by
  rw [igeDecrypt_eq_reference, referenceDecrypt, if_neg (not_not.mpr h)]
  refine ⟨_, rfl, ?_⟩
  rw [igeEncrypt_eq_reference, referenceEncrypt, if_neg (not_not.mpr (mod_length_ofChunks _)),
    asChunks_ofChunks, encrypt_decrypt, ofChunks_asChunks h]

theorem length_igeEncrypt {buffer c : Bytes} {iv : Iv} (h : igeEncrypt backend e buffer iv = .ok c) :
    c.length = buffer.length := by
  rw [igeEncrypt_eq_reference, referenceEncrypt] at h
  split at h
  next => cases h
  next hwhole =>
    cases h
    have hbuffer := congrArg List.length (ofChunks_asChunks (not_not.mp hwhole))
    rw [length_ofChunks] at hbuffer
    rw [length_ofChunks, length_referenceEncryptChunks, hbuffer]

/-- The mode is a bijection on whole blocks, each of them made from the block before it, and the
loop over registers is the loop over blocks. -/
theorem ige_is_a_bijection (E : Equiv.Perm Block) (e : Endian) (buffer : Bytes) (iv : Iv)
    (h : buffer.length % 16 = 0) :
    (∃ c, igeEncrypt E e buffer iv = .ok c ∧ igeDecrypt E.symm e c iv = .ok buffer ∧
      Chained E iv (asChunks buffer) (asChunks c)) ∧
    (∃ m, igeDecrypt E.symm e buffer iv = .ok m ∧ igeEncrypt E e m iv = .ok buffer) ∧
    igeEncrypt E e buffer iv = referenceEncrypt E buffer iv ∧
    igeDecrypt E.symm e buffer iv = referenceDecrypt E.symm buffer iv :=
  ⟨igeEncrypt_ok e E h, igeDecrypt_ok e E h, igeEncrypt_eq_reference E e buffer iv,
    igeDecrypt_eq_reference E.symm e buffer iv⟩

theorem ige_is_a_bijection_zeros :
    ∃ c, igeEncrypt (Equiv.refl Block) .little (List.replicate 32 0)
        ⟨List.replicate 32 7, rfl⟩ = .ok c ∧
      igeDecrypt (Equiv.refl Block) .little c ⟨List.replicate 32 7, rfl⟩ =
        .ok (List.replicate 32 0) := by
  obtain ⟨⟨c, hc, hm, _⟩, _⟩ := ige_is_a_bijection (Equiv.refl Block) .little
    (List.replicate 32 0) ⟨List.replicate 32 7, rfl⟩ (by decide)
  exact ⟨c, hc, hm⟩

end Aes

end Grammers
