import Mathlib.Data.List.Basic
import Mathlib.Data.List.TakeDrop

namespace Ige

abbrev Block : Type := List UInt8

/-- A block cipher under one key. -/
structure Cipher where
  encrypt : Block → Block
  decrypt : Block → Block
  length_encrypt : ∀ b, b.length = 16 → (encrypt b).length = 16
  length_decrypt : ∀ b, b.length = 16 → (decrypt b).length = 16
  decrypt_encrypt : ∀ b, b.length = 16 → decrypt (encrypt b) = b

def xor (a b : Block) : Block := List.zipWith (· ^^^ ·) a b

theorem length_xor {a b : Block} (ha : a.length = 16) (hb : b.length = 16) :
    (xor a b).length = 16 := by
  simp [xor, ha, hb]

theorem xor_xor {a b : Block} (h : a.length = b.length) : xor (xor a b) b = a := by
  induction a generalizing b with
  | nil => simp [xor]
  | cons x xs ih =>
    cases b with
    | nil => simp at h
    | cons y ys =>
      have htail := ih (Nat.succ.inj h)
      simp only [xor] at htail
      simp [xor, htail, UInt8.xor_assoc]

/-- Encrypt a number of blocks, each mixed with the ciphertext and the plaintext before it. -/
def encryptBlocks (c : Cipher) : Nat → Block → Block → List UInt8 → List UInt8
  | 0, _, _, buffer => buffer
  | n + 1, iv1, iv2, buffer =>
    let plaintext := buffer.take 16
    let ciphertext := xor (c.encrypt (xor plaintext iv1)) iv2
    ciphertext ++ encryptBlocks c n ciphertext plaintext (buffer.drop 16)

def decryptBlocks (c : Cipher) : Nat → Block → Block → List UInt8 → List UInt8
  | 0, _, _, buffer => buffer
  | n + 1, iv1, iv2, buffer =>
    let ciphertext := buffer.take 16
    let plaintext := xor (c.decrypt (xor ciphertext iv2)) iv1
    plaintext ++ decryptBlocks c n ciphertext plaintext (buffer.drop 16)

/-- What is left over after the last whole block is left alone. -/
def encrypt (c : Cipher) (iv buffer : List UInt8) : List UInt8 :=
  encryptBlocks c (buffer.length / 16) (iv.take 16) (iv.drop 16) buffer

def decrypt (c : Cipher) (iv buffer : List UInt8) : List UInt8 :=
  decryptBlocks c (buffer.length / 16) (iv.take 16) (iv.drop 16) buffer

variable {c : Cipher}

theorem length_encryptBlocks (n : Nat) :
    ∀ {iv1 iv2 : Block} {buffer : List UInt8}, iv1.length = 16 → iv2.length = 16 →
      n * 16 ≤ buffer.length → (encryptBlocks c n iv1 iv2 buffer).length = buffer.length := by
  induction n with
  | zero => intros; rfl
  | succ n ih =>
    intro iv1 iv2 buffer h1 h2 hlen
    have hplain : (buffer.take 16).length = 16 := by simp; omega
    have hcipher : (xor (c.encrypt (xor (buffer.take 16) iv1)) iv2).length = 16 :=
      length_xor (c.length_encrypt _ (length_xor hplain h1)) h2
    rw [encryptBlocks, List.length_append, ih hcipher hplain (by simp; omega), hcipher]
    simp
    omega

theorem length_encrypt {iv buffer : List UInt8} (hiv : iv.length = 32) :
    (encrypt c iv buffer).length = buffer.length :=
  length_encryptBlocks _ (by simp [hiv]) (by simp [hiv]) (Nat.div_mul_le_self _ _)

theorem decryptBlocks_encryptBlocks (n : Nat) :
    ∀ {iv1 iv2 : Block} {buffer : List UInt8}, iv1.length = 16 → iv2.length = 16 →
      n * 16 ≤ buffer.length →
      decryptBlocks c n iv1 iv2 (encryptBlocks c n iv1 iv2 buffer) = buffer := by
  induction n with
  | zero => intros; rfl
  | succ n ih =>
    intro iv1 iv2 buffer h1 h2 hlen
    have hplain : (buffer.take 16).length = 16 := by simp; omega
    have hmixed := length_xor hplain h1
    have hcipher : (xor (c.encrypt (xor (buffer.take 16) iv1)) iv2).length = 16 :=
      length_xor (c.length_encrypt _ hmixed) h2
    have hopen : xor (c.decrypt (xor (xor (c.encrypt (xor (buffer.take 16) iv1)) iv2) iv2)) iv1 =
        buffer.take 16 := by
      rw [xor_xor ((c.length_encrypt _ hmixed).trans h2.symm), c.decrypt_encrypt _ hmixed,
        xor_xor (hplain.trans h1.symm)]
    rw [encryptBlocks, decryptBlocks]
    simp only [List.take_left' hcipher, List.drop_left' hcipher, hopen]
    rw [ih hcipher hplain (by simp; omega), List.take_append_drop]

theorem decrypt_encrypt {iv buffer : List UInt8} (hiv : iv.length = 32) :
    decrypt c iv (encrypt c iv buffer) = buffer := by
  rw [decrypt, length_encrypt hiv, encrypt]
  exact decryptBlocks_encryptBlocks _ (by simp [hiv]) (by simp [hiv]) (Nat.div_mul_le_self _ _)

end Ige
