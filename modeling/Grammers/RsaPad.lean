import Mathlib.Logic.Function.Iterate
import Grammers.Rsa
import Grammers.RsaKey

namespace BigEndian

theorem ofBytes_replicate_zero (k : Nat) : ofBytes (List.replicate k 0) = 0 := by
  induction k with
  | zero => rfl
  | succ k ih => rw [List.replicate_succ, ofBytes_zero_cons, ih]

theorem ofBytes_replicate_ones (k : Nat) : ofBytes (List.replicate k 255) + 1 = 256 ^ k := by
  induction k with
  | zero => rfl
  | succ k ih =>
    rw [List.replicate_succ, ofBytes, List.length_replicate, Nat.add_assoc, ih, pow_succ]
    show 255 * 256 ^ k + 256 ^ k = _
    omega

end BigEndian

namespace Grammers

open Checked

namespace Rsa

variable {ε : Type}

/-- One more, and one after all ones. -/
def successor (data : Bytes) : Bytes :=
  BigEndian.toBytes data.length
    (if BigEndian.ofBytes data + 1 = 256 ^ data.length then 1 else BigEndian.ofBytes data + 1)

theorem eq_successor {data data' : Bytes} (hlength : data'.length = data.length)
    (h : BigEndian.ofBytes data' =
      if BigEndian.ofBytes data + 1 = 256 ^ data.length then 1 else BigEndian.ofBytes data + 1) :
    data' = successor data := by
  rw [successor, ← h, ← hlength, BigEndian.toBytes_ofBytes]

theorem incrementFrom_full {data : Bytes} {i : Nat} (h : data[i]? = some 255) :
    incrementFrom data i =
      (incrementFrom (data.set i 0) (if i = 0 then data.length - 1 else i - 1) :
        Except (Fault ε) Bytes) := by
  rw [incrementFrom]
  split
  next hnone => rw [hnone] at h; cases h
  next b hb =>
    rw [h] at hb
    cases hb
    rfl

theorem incrementFrom_done {data : Bytes} {i : Nat} {b : UInt8} (h : data[i]? = some b)
    (hb : b ≠ 255) : incrementFrom data i = (.ok (data.set i (b + 1)) : Except (Fault ε) Bytes) := by
  rw [incrementFrom]
  split
  next hnone => rw [hnone] at h; cases h
  next b' hb' =>
    rw [h] at hb'
    cases hb'
    refine dif_neg fun hzero => hb ?_
    have hlt := b.toNat_lt
    have hmod := congrArg UInt8.toNat hzero
    rw [UInt8.toNat_add] at hmod
    change (b.toNat + 1) % 256 = 0 at hmod
    exact UInt8.toNat_inj.mp (show b.toNat = 255 by omega)

theorem toNat_add_one {b : UInt8} (hb : b ≠ 255) : (b + 1).toNat = b.toNat + 1 := by
  have hlt := b.toNat_lt
  have hne : b.toNat ≠ 255 := fun h => hb (UInt8.toNat_inj.mp h)
  rw [UInt8.toNat_add]
  show (b.toNat + 1) % 256 = _
  omega

/-- Behind where the carry is, there were ones and are zeros. -/
theorem incrementFrom_stop (pre : Bytes) {b : UInt8} (k : Nat) (hb : b ≠ 255) :
    incrementFrom (pre ++ b :: List.replicate k 0) pre.length =
      (.ok (successor (pre ++ b :: List.replicate k 255)) : Except (Fault ε) Bytes) := by
  have hset : (pre ++ b :: List.replicate k 0).set pre.length (b + 1) =
      pre ++ (b + 1) :: List.replicate k 0 := by simp
  rw [incrementFrom_done (by simp) hb, hset]
  refine congrArg Except.ok (eq_successor (by simp) ?_)
  have hones := BigEndian.ofBytes_replicate_ones k
  have hvalue : BigEndian.ofBytes (pre ++ (b + 1) :: List.replicate k 0) =
      BigEndian.ofBytes (pre ++ b :: List.replicate k 255) + 1 := by
    simp only [BigEndian.ofBytes_append, BigEndian.ofBytes, List.length_cons, List.length_replicate,
      BigEndian.ofBytes_replicate_zero, toNat_add_one hb, Nat.add_assoc, hones, Nat.add_one_mul,
      Nat.add_zero]
  have hlt := BigEndian.ofBytes_lt (pre ++ (b + 1) :: List.replicate k 0)
  rw [hvalue] at hlt
  have hlength : (pre ++ (b + 1) :: List.replicate k 0).length =
      (pre ++ b :: List.replicate k 255).length := by simp
  rw [hlength] at hlt
  rw [if_neg hlt.ne, hvalue]

theorem incrementFrom_carry (pre : Bytes) : ∀ (b : UInt8) (k : Nat),
    incrementFrom (pre ++ b :: List.replicate k 0) pre.length =
      (.ok (successor (pre ++ b :: List.replicate k 255)) : Except (Fault ε) Bytes) := by
  induction pre using List.reverseRecOn with
  | nil =>
    intro b k
    by_cases hb : b = 255
    · subst hb
      have hlast : (List.replicate (k + 1) (0 : UInt8))[k]? = some 0 := by simp
      rw [incrementFrom_full (by simp)]
      simp only [List.nil_append, List.length_nil, List.set_cons_zero, ↓reduceIte, List.length_cons,
        List.length_replicate, Nat.add_sub_cancel, ← List.replicate_succ]
      rw [incrementFrom_done hlast (by decide)]
      refine congrArg Except.ok (eq_successor (by simp) ?_)
      have hset : (List.replicate (k + 1) (0 : UInt8)).set k (0 + 1) = List.replicate k 0 ++ [1] := by
        rw [List.replicate_succ', List.set_append_right _ _ (by simp)]
        simp
      rw [hset, BigEndian.ofBytes_append, BigEndian.ofBytes_replicate_zero,
        BigEndian.ofBytes_replicate_ones, List.length_replicate, if_pos rfl]
      rfl
    · exact incrementFrom_stop [] k hb
  | append_singleton init b' ih =>
    intro b k
    by_cases hb : b = 255
    · subst hb
      have hset : (init ++ [b'] ++ 255 :: List.replicate k 0).set (init ++ [b']).length 0 =
          init ++ b' :: List.replicate (k + 1) 0 := by simp [List.replicate_succ]
      have hones : init ++ [b'] ++ 255 :: List.replicate k (255 : UInt8) =
          init ++ b' :: List.replicate (k + 1) 255 := by simp [List.replicate_succ]
      rw [incrementFrom_full (by simp), hset, hones, if_neg (by simp), List.length_append,
        List.length_singleton, Nat.add_sub_cancel]
      exact ih b' (k + 1)
    · exact incrementFrom_stop (init ++ [b']) k hb

theorem increment_eq {data : Bytes} (h : data ≠ []) :
    increment data = (.ok (successor data) : Except (Fault ε) Bytes) := by
  obtain ⟨pre, b, rfl⟩ := List.eq_nil_or_concat' data |>.resolve_left h
  have hpos : 1 ≤ (pre ++ [b]).length := by simp
  have hcarry := incrementFrom_carry (ε := ε) pre b 0
  rw [increment, sub_ok hpos, List.length_append, List.length_singleton, Nat.add_sub_cancel]
  exact hcarry

theorem length_successor (data : Bytes) : (successor data).length = data.length :=
  BigEndian.length_toBytes _ _

/-! The keys that are tried one after another. -/

/-- The number after a number below a bound, where the last is followed by one. -/
def following (bound x : Nat) : Nat := if x + 1 = bound then 1 else x + 1

theorem ofBytes_successor {data : Bytes} (h : data ≠ []) :
    BigEndian.ofBytes (successor data) =
      following (256 ^ data.length) (BigEndian.ofBytes data) := by
  have hlt := BigEndian.ofBytes_lt data
  have hone : 1 < 256 ^ data.length :=
    Nat.one_lt_pow (fun hzero => h (List.length_eq_zero_iff.mp hzero)) (by decide)
  rw [successor, BigEndian.ofBytes_toBytes, following]
  refine Nat.mod_eq_of_lt ?_
  split
  · exact hone
  · omega

theorem mod_add_one (a m : Nat) : (a + 1) % m = if a % m + 1 = m then 0 else a % m + 1 := by
  rcases Nat.eq_zero_or_pos m with rfl | hm
  · simp
  · have hlt := Nat.mod_lt a hm
    rw [← Nat.mod_add_mod]
    split
    next hend => rw [hend, Nat.mod_self]
    next hend => exact Nat.mod_eq_of_lt (by omega)

theorem following_iterate {bound x : Nat} (hbound : 1 < bound) (hx : 0 < x) (hlt : x < bound)
    (i : Nat) : (following bound)^[i] x = (x - 1 + i) % (bound - 1) + 1 := by
  induction i with
  | zero =>
    rw [Function.iterate_zero_apply, Nat.add_zero, Nat.mod_eq_of_lt (by omega)]
    omega
  | succ i ih =>
    rw [Function.iterate_succ_apply', ih, following, ← Nat.add_assoc, mod_add_one]
    split
    next hend => rw [if_pos (by omega)]
    next hend => rw [if_neg (by omega)]

/-- How many numbers there are before one comes again. -/
def period (bound x : Nat) : Nat := if x = 0 then bound else bound - 1

theorem following_iterate_zero {bound : Nat} (hbound : 1 < bound) {i : Nat} (hi : i < bound) :
    (following bound)^[i] 0 = i := by
  cases i with
  | zero => rfl
  | succ i =>
    have hone : following bound 0 = 1 := by simp [following]
    rw [Function.iterate_succ_apply, hone, following_iterate hbound Nat.one_pos hbound,
      Nat.sub_self, Nat.zero_add, Nat.mod_eq_of_lt (by omega)]

theorem following_injective {bound x i j : Nat} (hbound : 1 < bound) (hx : x < bound)
    (hi : i < period bound x) (hj : j < period bound x)
    (h : (following bound)^[i] x = (following bound)^[j] x) : i = j := by
  by_cases hzero : x = 0
  · subst hzero
    rw [period, if_pos rfl] at hi hj
    rwa [following_iterate_zero hbound hi, following_iterate_zero hbound hj] at h
  · have hpos := Nat.pos_of_ne_zero hzero
    rw [period, if_neg hzero] at hi hj
    rw [following_iterate hbound hpos hx, following_iterate hbound hpos hx] at h
    have hmod : x - 1 + i ≡ x - 1 + j [MOD bound - 1] := Nat.succ.inj h
    exact (Nat.ModEq.add_left_cancel' _ hmod).eq_of_lt_of_lt hi hj

theorem following_surjective {bound x y : Nat} (hbound : 1 < bound) (hx : x < bound)
    (hy : y < bound) (h : y = 0 → x = 0) :
    ∃ i < period bound x, (following bound)^[i] x = y := by
  by_cases hzero : x = 0
  · subst hzero
    rw [period, if_pos rfl]
    exact ⟨y, hy, following_iterate_zero hbound hy⟩
  · have hpos := Nat.pos_of_ne_zero hzero
    have hne : y ≠ 0 := fun hy0 => hzero (h hy0)
    rw [period, if_neg hzero]
    refine ⟨(y + (bound - 1) - x) % (bound - 1), Nat.mod_lt _ (by omega), ?_⟩
    have hsum : x - 1 + (y + (bound - 1) - x) = y - 1 + (bound - 1) := by omega
    rw [following_iterate hbound hpos hx, Nat.add_mod_mod, hsum, Nat.add_mod_right,
      Nat.mod_eq_of_lt (by omega)]
    omega

/-- The keys that are tried, one after another. -/
def tempKeyAt (start : Bytes) : Nat → Except (Fault Unit) Bytes
  | 0 => .ok start
  | i + 1 => do
    let tempKey ← tempKeyAt start i
    increment tempKey

theorem length_successor_iterate (start : Bytes) (i : Nat) :
    (successor^[i] start).length = start.length := by
  induction i with
  | zero => rfl
  | succ i ih => rw [Function.iterate_succ_apply', length_successor, ih]

theorem successor_iterate_ne_nil {start : Bytes} (h : start ≠ []) (i : Nat) :
    successor^[i] start ≠ [] := by
  intro hnil
  have hlength := length_successor_iterate start i
  rw [hnil] at hlength
  exact h (List.length_eq_zero_iff.mp hlength.symm)

theorem tempKeyAt_eq {start : Bytes} (h : start ≠ []) (i : Nat) :
    tempKeyAt start i = .ok (successor^[i] start) := by
  induction i with
  | zero => rfl
  | succ i ih =>
    rw [tempKeyAt, ih, Function.iterate_succ_apply']
    exact increment_eq (successor_iterate_ne_nil h i)

theorem ofBytes_successor_iterate {start : Bytes} (h : start ≠ []) (i : Nat) :
    BigEndian.ofBytes (successor^[i] start) =
      (following (256 ^ start.length))^[i] (BigEndian.ofBytes start) := by
  induction i with
  | zero => rfl
  | succ i ih =>
    rw [Function.iterate_succ_apply', ofBytes_successor (successor_iterate_ne_nil h i),
      length_successor_iterate, ih, Function.iterate_succ_apply']

/-- No key comes twice before all have come, but for the one of zeros, which comes first or not at
all. -/
theorem tempKeyAt_enumerates {start : Bytes} (h : start ≠ []) :
    (∀ i j, i < period (256 ^ start.length) (BigEndian.ofBytes start) →
      j < period (256 ^ start.length) (BigEndian.ofBytes start) →
      tempKeyAt start i = tempKeyAt start j → i = j) ∧
    ∀ key : Bytes, key.length = start.length →
      (BigEndian.ofBytes key = 0 → BigEndian.ofBytes start = 0) →
      ∃ i < period (256 ^ start.length) (BigEndian.ofBytes start), tempKeyAt start i = .ok key := by
  have hbound : 1 < 256 ^ start.length :=
    Nat.one_lt_pow (fun hzero => h (List.length_eq_zero_iff.mp hzero)) (by decide)
  have hstart := BigEndian.ofBytes_lt start
  constructor
  · intro i j hi hj heq
    rw [tempKeyAt_eq h, tempKeyAt_eq h] at heq
    have hvalue := congrArg BigEndian.ofBytes (Except.ok.inj heq)
    rw [ofBytes_successor_iterate h, ofBytes_successor_iterate h] at hvalue
    exact following_injective hbound hstart hi hj hvalue
  · intro key hlength hzero
    have hkey := BigEndian.ofBytes_lt key
    rw [hlength] at hkey
    obtain ⟨i, hi, hvalue⟩ := following_surjective hbound hstart hkey hzero
    refine ⟨i, hi, ?_⟩
    rw [tempKeyAt_eq h]
    refine congrArg Except.ok (BigEndian.ofBytes_injective ?_ ?_)
    · rw [length_successor_iterate, hlength]
    · rw [ofBytes_successor_iterate h, hvalue]

/-! What the holder of the private exponent reads. -/

variable (prim : Primitives) (endian : Aes.Endian)

/-- What the key and the ciphertext are made to, and that they are found again. -/
structure Encrypted (data tempKey block : Bytes) : Prop where
  encrypted : keyAesEncrypted prim endian data tempKey = .ok block
  length : block.length = 256
  key : Ige.xor (block.take 32) (prim.sha256 (block.drop 32)).1 = tempKey
  decrypted : Aes.igeDecrypt (prim.aes256 tempKey).symm endian (block.drop 32) zeroIv =
    .ok (data.reverse ++ (prim.sha256 (tempKey ++ data)).1)

theorem exists_encrypted {data tempKey : Bytes} (hdata : data.length = 192)
    (hkey : tempKey.length = 32) : ∃ block, Encrypted prim endian data tempKey block := by
  have hhash := (prim.sha256 (tempKey ++ data)).2
  have hlength : (data.reverse ++ (prim.sha256 (tempKey ++ data)).1).length = 224 := by
    rw [List.length_append, List.length_reverse, hdata, hhash]
  obtain ⟨c, hc, hdecrypted, -⟩ := @Aes.igeEncrypt_ok endian (prim.aes256 tempKey)
    (data.reverse ++ (prim.sha256 (tempKey ++ data)).1) zeroIv (by rw [hlength])
  have hsha : tempKey.length = (prim.sha256 c).1.length := by rw [hkey, (prim.sha256 c).2]
  have hxor : (Ige.xor tempKey (prim.sha256 c).1).length = 32 := by
    rw [Ige.xor, List.length_zipWith, ← hsha, Nat.min_self, hkey]
  have htake : (Ige.xor tempKey (prim.sha256 c).1 ++ c).take 32 =
      Ige.xor tempKey (prim.sha256 c).1 := List.take_left' hxor
  have hdrop : (Ige.xor tempKey (prim.sha256 c).1 ++ c).drop 32 = c := List.drop_left' hxor
  refine ⟨Ige.xor tempKey (prim.sha256 c).1 ++ c, ?_, ?_, ?_, ?_⟩
  · rw [keyAesEncrypted, hc]
    rfl
  · rw [List.length_append, hxor, Aes.length_igeEncrypt _ _ hc, hlength]
  · rw [htake, hdrop, Ige.xor_xor hsha]
  · rw [hdrop, hdecrypted]

/-- A key that was tried, with what came of it not below the modulus. -/
def Rejected (key : Key) (data start : Bytes) (i : Nat) : Prop :=
  ∃ tempKey block, tempKeyAt start i = .ok tempKey ∧
    keyAesEncrypted prim endian data tempKey = .ok block ∧ key.n ≤ BigEndian.ofBytes block

/-- The first key whose block is below the modulus is taken. -/
theorem retry_eq (key : Key) {data start : Bytes} (hdata : data.length = 192)
    (hstart : start.length = 32) (more i : Nat) :
    (retry prim endian key data more (successor^[i] start) = .ok none ∧
      ∀ j, i ≤ j → j < i + more → Rejected prim endian key data start j) ∨
    ∃ k block, i ≤ k ∧ k < i + more ∧
      retry prim endian key data more (successor^[i] start) = .ok (some block) ∧
      Encrypted prim endian data (successor^[k] start) block ∧ BigEndian.ofBytes block < key.n ∧
      ∀ j, i ≤ j → j < k → Rejected prim endian key data start j := by
  have hne : start ≠ [] := fun hnil => by rw [hnil] at hstart; cases hstart
  induction more generalizing i with
  | zero => exact .inl ⟨rfl, fun j hij hj => absurd hj (by omega)⟩
  | succ more ih =>
    have hkey : (successor^[i] start).length = 32 := by rw [length_successor_iterate, hstart]
    obtain ⟨block, hblock⟩ := exists_encrypted prim endian hdata hkey
    by_cases hn : key.n ≤ BigEndian.ofBytes block
    · have hrejected : Rejected prim endian key data start i :=
        ⟨_, block, tempKeyAt_eq hne i, hblock.encrypted, hn⟩
      have hnext : retry prim endian key data (more + 1) (successor^[i] start) =
          retry prim endian key data more (successor^[i + 1] start) := by
        rw [retry, hblock.encrypted]
        simp only [Bind.bind, Except.bind]
        rw [if_pos hn, increment_eq (successor_iterate_ne_nil hne i), Function.iterate_succ_apply']
      rw [hnext]
      rcases ih (i + 1) with ⟨hnone, hall⟩ | ⟨k, block', hik, hk, hsome, henc, hlt, hall⟩
      · refine .inl ⟨hnone, fun j hij hj => ?_⟩
        rcases hij.eq_or_lt with rfl | hlt
        · exact hrejected
        · exact hall j hlt (by omega)
      · refine .inr ⟨k, block', by omega, by omega, hsome, henc, hlt, fun j hij hj => ?_⟩
        rcases hij.eq_or_lt with rfl | hlt
        · exact hrejected
        · exact hall j hlt hj
    · refine .inr ⟨i, block, le_rfl, by omega, ?_, hblock, by omega,
        fun j hij hj => absurd hj (by omega)⟩
      rw [retry, hblock.encrypted]
      simp only [Bind.bind, Except.bind]
      rw [if_neg hn]

theorem insertZeros_eq (block : Bytes) :
    insertZeros block = List.replicate (256 - block.length) 0 ++ block := by
  induction block using insertZeros.induct with
  | case1 block h ih =>
    have hsub : 256 - block.length = 256 - (0 :: block).length + 1 := by
      rw [List.length_cons]
      omega
    rw [insertZeros, if_pos h, ih, hsub, List.replicate_succ', List.append_assoc]
    rfl
  | case2 block h =>
    rw [insertZeros, if_neg h, show 256 - block.length = 0 by omega]
    rfl

/-- A number below the modulus fills one block, whatever zeros it starts with. -/
theorem block_eq {key : Key} (hn : key.n < 256 ^ 256) {m : Nat} (hm : m < key.n) :
    insertZeros (BigEndian.toBytesBe m) = BigEndian.toBytes 256 m := by
  have hlt : m < 256 ^ (255 + 1) := hm.trans hn
  rw [insertZeros_eq]
  exact BigEndian.replicate_append_toBytesBe hlt

/-- What is left to do when the loop has ended. -/
def finish (key : Key) : Option Bytes → Except (Fault Unit) (Option Bytes)
  | none => .ok none
  | some block => do
    let encrypted ← modpow (BigEndian.ofBytes block) key.e key.n
    .ok (some (insertZeros (BigEndian.toBytesBe encrypted)))

theorem finish_some {key : Key} (hn : key.n < 256 ^ 256) {block : Bytes}
    (hlt : BigEndian.ofBytes block < key.n) :
    finish key (some block) =
      .ok (some (BigEndian.toBytes 256 (BigEndian.ofBytes block ^ key.e % key.n))) := by
  have hpos := Nat.zero_lt_of_lt hlt
  rw [finish, modpow, if_neg hpos.ne', ← block_eq hn (Nat.mod_lt _ hpos)]
  rfl

theorem openBlock_eq {data tempKey block : Bytes} {key : Key} {d : Nat}
    (hn : key.n < 256 ^ 256) (hdata : data.length = 192) (hkey : RsaKey key.n key.e d)
    (henc : Encrypted prim endian data tempKey block) (hlt : BigEndian.ofBytes block < key.n) :
    openBlock prim endian d key
        (BigEndian.toBytes 256 (BigEndian.ofBytes block ^ key.e % key.n)) =
      .ok (tempKey, data, (prim.sha256 (tempKey ++ data)).1) := by
  have hmod := Nat.mod_lt (BigEndian.ofBytes block ^ key.e) (Nat.zero_lt_of_lt hlt)
  have hvalue : BigEndian.ofBytes
      (BigEndian.toBytes 256 (BigEndian.ofBytes block ^ key.e % key.n)) =
      BigEndian.ofBytes block ^ key.e % key.n := by
    rw [BigEndian.ofBytes_toBytes]
    exact Nat.mod_eq_of_lt (hmod.trans hn)
  have hpayload : BigEndian.toBytes 256 (BigEndian.ofBytes block) = block := by
    rw [← henc.length]
    exact BigEndian.toBytes_ofBytes block
  have hreverse : data.reverse.length = 192 := by rw [List.length_reverse, hdata]
  unfold openBlock
  rw [hvalue, hkey.pow_pow_mod hlt, hpayload]
  simp only [henc.key, henc.decrypted, Bind.bind, Except.bind, List.take_left' hreverse,
    List.drop_left' hreverse, List.reverse_reverse]

/-- The key holder reads back the key, the data behind which is its padding, and their hash; and the
keys that are tried for it are all different. -/
theorem rsa_pad_is_invertible (data : Bytes) (hdata : data.length ≤ 144)
    (random : { b : Bytes // b.length = 224 }) (key : Key) (d : Nat)
    (hkey : RsaKey key.n key.e d) (hn : key.n < 256 ^ 256) (more : Nat) :
    let start := random.1.drop 192
    let dataWithPadding := data ++ random.1.take (192 - data.length)
    (∃ stopped, encryptHashed prim endian more data key random = .ok stopped ∧
      match stopped with
      | none => ∀ i < more, Rejected prim endian key dataWithPadding start i
      | some block => block.length = 256 ∧ ∃ i < more, ∃ tempKey,
          tempKeyAt start i = .ok tempKey ∧
          (∀ j < i, Rejected prim endian key dataWithPadding start j) ∧
          openBlock prim endian d key block =
            .ok (tempKey, dataWithPadding, (prim.sha256 (tempKey ++ dataWithPadding)).1)) ∧
    (∀ i j, i < period (256 ^ 32) (BigEndian.ofBytes start) →
      j < period (256 ^ 32) (BigEndian.ofBytes start) →
      tempKeyAt start i = tempKeyAt start j → i = j) ∧
    ∀ tempKey : Bytes, tempKey.length = 32 →
      (BigEndian.ofBytes tempKey = 0 → BigEndian.ofBytes start = 0) →
      ∃ i < period (256 ^ 32) (BigEndian.ofBytes start), tempKeyAt start i = .ok tempKey := by
  intro start dataWithPadding
  have hstart : start.length = 32 := by
    rw [List.length_drop, random.2]
  have hne : start ≠ [] := fun hnil => by rw [hnil] at hstart; cases hstart
  have hpadded : dataWithPadding.length = 192 := by
    rw [List.length_append, List.length_take, random.2]
    omega
  have henumerates := tempKeyAt_enumerates hne
  rw [hstart] at henumerates
  refine ⟨?_, henumerates⟩
  have hpadding : slice random.1 0 (192 - data.length) =
      (.ok (random.1.take (192 - data.length)) : Except (Fault Unit) Bytes) := by
    rw [slice_ok (Nat.zero_le _) (by rw [random.2]; omega)]
    rfl
  have htempKey : slice random.1 192 (192 + 32) = (.ok start : Except (Fault Unit) Bytes) := by
    rw [slice_ok (by decide) (by rw [random.2])]
    exact congrArg Except.ok (List.take_of_length_le hstart.le)
  have hread : encryptHashed prim endian more data key random =
      retry prim endian key dataWithPadding more start >>= finish key := by
    rw [encryptHashed, if_pos hdata, hpadding, htempKey]
    rfl
  rw [hread]
  rcases retry_eq prim endian key hpadded hstart more 0 with
    ⟨hnone, hall⟩ | ⟨i, block, -, hi, hsome, henc, hlt, hall⟩
  · rw [Function.iterate_zero_apply] at hnone
    rw [hnone]
    exact ⟨none, rfl, fun i hi => hall i (Nat.zero_le i) (by omega)⟩
  · rw [Function.iterate_zero_apply] at hsome
    rw [hsome]
    exact ⟨_, finish_some hn hlt, BigEndian.length_toBytes 256 _, i, by omega, _, tempKeyAt_eq hne i,
      fun j hj => hall j (Nat.zero_le j) hj, openBlock_eq prim endian hn hpadded hkey henc hlt⟩

/-- A small modulus, with a hash of zeros and blocks that are left alone: the first key is taken. -/
theorem rsa_pad_is_invertible_small :
    let prim : Primitives := ⟨fun _ => ⟨List.replicate 32 0, rfl⟩, fun _ => Equiv.refl _⟩
    ∃ block, encryptHashed prim .little 1 [0] ⟨15, 3⟩ ⟨List.replicate 224 0, rfl⟩ =
        .ok (some block) ∧
      openBlock prim .little 3 ⟨15, 3⟩ block =
        .ok (List.replicate 32 0, List.replicate 192 0, List.replicate 32 0) := by
  intro prim
  have hkey : RsaKey 15 3 3 := ⟨3, 5, by decide, by decide, by decide, rfl, rfl, rfl⟩
  obtain ⟨stopped, hstopped, hresult⟩ := (rsa_pad_is_invertible prim .little [0] (by decide)
    ⟨List.replicate 224 0, rfl⟩ ⟨15, 3⟩ 3 hkey (by decide) 1).1
  have hblock : keyAesEncrypted prim .little (List.replicate 192 0) (List.replicate 32 0) =
      .ok (List.replicate 256 0) := by
    decide +kernel
  cases stopped with
  | none =>
    obtain ⟨tempKey, block, htempKey, hencrypted, hn⟩ := hresult 0 Nat.one_pos
    obtain rfl := Except.ok.inj htempKey
    obtain rfl := Except.ok.inj (hblock.symm.trans hencrypted)
    rw [BigEndian.ofBytes_replicate_zero] at hn
    exact absurd hn (by decide)
  | some block =>
    obtain ⟨-, i, hi, tempKey, htempKey, -, hopen⟩ := hresult
    obtain rfl := Nat.lt_one_iff.mp hi
    obtain rfl := Except.ok.inj htempKey
    exact ⟨block, hstopped, hopen⟩

end Rsa

end Grammers
