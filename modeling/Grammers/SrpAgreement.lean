import Mathlib.Data.Int.ModEq
import Grammers.GeneratorCheck

namespace Grammers

open Checked

namespace TwoFactorAuth

variable {ε : Type}

/-- A number in 256 bytes. -/
def padded (n : Nat) : Padded := ⟨BigEndian.toBytes 256 n, BigEndian.length_toBytes 256 n⟩

theorem padTo256_of_le {data : Bytes} (h : data.length ≤ 256) :
    padTo256 data = (.ok (padded (BigEndian.ofBytes data)) : Except (Fault ε) Padded) := by
  have hadd := BigEndian.toBytes_add (256 - data.length) (BigEndian.ofBytes_lt data)
  rw [BigEndian.toBytes_ofBytes, Nat.sub_add_cancel h] at hadd
  rw [padTo256, dif_pos h]
  exact congrArg Except.ok (Subtype.ext hadd.symm)

theorem padTo256_toBytesBe {n : Nat} (h : n < 256 ^ 256) :
    padTo256 (BigEndian.toBytesBe n) = (.ok (padded n) : Except (Fault ε) Padded) := by
  rw [padTo256_of_le (BigEndian.length_toBytesBe h), BigEndian.ofBytes_toBytesBe]

theorem ofBytes_padded {n : Nat} (h : n < 256 ^ 256) : BigEndian.ofBytes (padded n).1 = n := by
  rw [padded, BigEndian.ofBytes_toBytes, Nat.mod_eq_of_lt h]

variable (kdf : Kdf)

/-- What both sides hash, from the public values and from the secret that they share. -/
def proof (salt1 salt2 p : Bytes) (g gA gB secret : Nat) : Digest :=
  kdf.sha256 ((xor (kdf.sha256 p) (kdf.sha256 (padded g).1)).1 ++ (kdf.sha256 salt1).1 ++
    (kdf.sha256 salt2).1 ++ (padded gA).1 ++ (padded gB).1 ++ (kdf.sha256 (padded secret).1).1)

def multiplier (p : Bytes) (g : Nat) : Nat := BigEndian.ofBytes (kdf.sha256 (p ++ (padded g).1)).1

def scrambler (gA gB : Nat) : Nat :=
  BigEndian.ofBytes (kdf.sha256 ((padded gA).1 ++ (padded gB).1)).1

def passwordKey (password salt1 salt2 : Bytes) : Nat :=
  BigEndian.ofBytes (ph2 kdf password salt1 salt2).1

/-- The secret as the client computes it, by taking away from the value of the server what it was
blinded with. -/
def clientSecret (p g k u x a gB : Nat) : Nat :=
  (((gB : Int) - (k * (g ^ x % p) % p : Nat)) % p).toNat ^ (a + u * x) % p

/-- What the server stores of a password, and what it sends and computes. -/
def verifier (p g x : Nat) : Nat := g ^ x % p

def blinded (p g k v b : Nat) : Nat := (k * v + g ^ b) % p

def serverSecret (p v u b gA : Nat) : Nat := (gA * v ^ u) ^ b % p

theorem unblind (k v w p : Nat) :
    ((((k * v + w) % p : Nat) : Int) - (k * v % p : Nat)) % p = (w % p : Nat) := by
  push_cast
  rw [← Int.sub_emod, add_sub_cancel_left]

/-- Both sides come to the same secret. -/
theorem clientSecret_eq (p g k u x a b : Nat) :
    clientSecret p g k u x a (blinded p g k (verifier p g x) b) =
      serverSecret p (verifier p g x) u b (g ^ a % p) := by
  unfold clientSecret blinded serverSecret verifier
  rw [unblind, Int.toNat_natCast, ← Nat.pow_mod]
  calc (g ^ b) ^ (a + u * x) % p = (g ^ a * (g ^ x) ^ u) ^ b % p := by ring_nf
    _ = (g ^ a % p * (g ^ x % p) ^ u) ^ b % p :=
      ((Nat.mod_modEq _ p).symm.mul ((Nat.mod_modEq _ p).symm.pow u)).pow b

/-- A generator is the same number to all: as it is, in a byte and in a word. -/
theorem generator_forms {g : Int32} (hg : 2 ≤ g) (hg' : g ≤ 7) :
    g.toUInt32.toNat = g.toInt.toNat ∧
      BigEndian.ofBytes [g.toUInt32.toUInt8] = g.toInt.toNat := by
  rcases generator_cases hg hg' with rfl | rfl | rfl | rfl | rfl | rfl
  all_goals exact ⟨by decide, by decide⟩

/-- With parameters that fit, nothing panics, and the proof is made of the secret of the client. -/
theorem calculate2fa_ok {p gB a : Bytes} {g : Int32} (salt1 salt2 password : Bytes)
    (hp : p.length = 256) (hpos : 0 < BigEndian.ofBytes p) (hg : 2 ≤ g) (hg' : g ≤ 7)
    (hgB : gB.length ≤ 256) (ha : a.length ≤ 256) :
    let n := BigEndian.ofBytes p
    let gen := g.toInt.toNat
    let gA := gen ^ BigEndian.ofBytes a % n
    let k := multiplier kdf p gen
    let u := scrambler kdf gA (BigEndian.ofBytes gB)
    let x := passwordKey kdf password salt1 salt2
    calculate2fa kdf salt1 salt2 p g gB a password =
      (.ok (proof kdf salt1 salt2 p gen gA (BigEndian.ofBytes gB)
          (clientSecret n gen k u x (BigEndian.ofBytes a) (BigEndian.ofBytes gB)), padded gA) :
        Except (Fault ε) _) := by
  intro n gen gA k u x
  obtain ⟨hword, hbyte⟩ := generator_forms hg hg'
  have hn : n < 256 ^ 256 := by
    have hlt := BigEndian.ofBytes_lt p
    rwa [hp] at hlt
  have hfits : ∀ m, m % n < 256 ^ 256 := fun m => (Nat.mod_lt m hpos).trans hn
  have hB : BigEndian.ofBytes (padded (BigEndian.ofBytes gB)).1 = BigEndian.ofBytes gB :=
    ofBytes_padded ((BigEndian.ofBytes_lt gB).trans_le (Nat.pow_le_pow_right (by decide) hgB))
  have hA : BigEndian.ofBytes (padded (BigEndian.ofBytes a)).1 = BigEndian.ofBytes a :=
    ofBytes_padded ((BigEndian.ofBytes_lt a).trans_le (Nat.pow_le_pow_right (by decide) ha))
  have hmodpow : ∀ base e, modpow base e n = (.ok (base ^ e % n) : Except (Fault ε) Nat) :=
    fun base e => if_neg hpos.ne'
  have hrem : ∀ m, rem m n = (.ok (m % n) : Except (Fault ε) Nat) := fun m => if_neg hpos.ne'
  have heuclid : ∀ m : Int, remEuclid m n = (.ok (m % n).toNat : Except (Fault ε) Nat) :=
    fun m => if_neg hpos.ne'
  have hbytePad : padTo256 [g.toUInt32.toUInt8] = (.ok (padded gen) : Except (Fault ε) Padded) := by
    rw [padTo256_of_le (by simp), hbyte]
  unfold calculate2fa
  simp only [padTo256_of_le hgB, padTo256_of_le ha, hbytePad, hword, Bind.bind, Except.bind, hA, hB]
  simp only [show BigEndian.ofBytes p = n from rfl, show g.toInt.toNat = gen from rfl, hmodpow,
    hrem, heuclid, padTo256_toBytesBe (hfits _)]
  rfl

theorem checkPAndG_length {safePrimeCheck : Nat → Option Bool} {p : Bytes} {g : Int32}
    (h : checkPAndG safePrimeCheck p g = true) :
    p.length = 256 ∧ 0 < BigEndian.ofBytes p ∧ 2 ≤ g ∧ g ≤ 7 := by
  unfold checkPAndG at h
  split at h
  next => cases h
  next hchecks =>
    simp only [Bool.or_eq_true, Bool.not_eq_true', beq_iff_eq, not_or, checkPLen,
      decide_eq_false_iff_not, not_not] at hchecks
    obtain ⟨⟨hlength, hbit⟩, hg, hg'⟩ := hchecks
    refine ⟨hlength, ?_, hg, hg'⟩
    cases p with
    | nil => cases hlength
    | cons first rest =>
      rw [List.headD_cons] at hbit
      have hfirst : 0 < first.toNat := by
        refine Nat.pos_of_ne_zero fun hzero => hbit ?_
        rw [show first = 0 from UInt8.toNat_inj.mp hzero]
        rfl
      have hpow : 0 < 256 ^ rest.length := by positivity
      exact Nat.lt_of_lt_of_le (Nat.mul_pos hfirst hpow) (Nat.le_add_right _ _)

/-- Parameters are only read where nothing that is used later is missing or too long. -/
structure Usable (info : Password) : Prop where
  srpB : ∃ b, info.srpB = some b ∧ b.length ≤ 256
  secureRandom : info.secureRandom.length ≤ 256

theorem passwordParameters_safe (info : Password) :
    Safe (passwordParameters info) fun _ => Usable info := by
  refine (Safe.require _ _).bind fun algo _ => .ite (fun _ => .error _) fun hknown => ?_
  have hextract : Safe (extractPasswordParameters algo : Except (Fault IoError) _)
      fun _ => True := by
    cases algo with
    | unknown => exact absurd rfl hknown
    | modPow => trivial
  refine hextract.bind fun params _ => (Safe.require _ _).bind fun b hb => ?_
  refine .ite (fun _ => .error _) fun hchecks => .ok ?_
  simp only [Bool.or_eq_true, Bool.not_eq_true', decide_eq_true_eq, decide_eq_false_iff_not, not_or,
    not_not, not_lt] at hchecks
  obtain ⟨⟨⟨⟨⟨⟨⟨-, -⟩, -⟩, hlength⟩, -⟩, -⟩, hrandom⟩, -⟩ := hchecks
  exact ⟨⟨b, hb, hlength.2⟩, hrandom⟩

/-- A password that was read can be proved, or it is said why not. -/
theorem passwordProof_safe (safePrimeCheck : Nat → Option Bool) (info : Password)
    (password : Bytes) :
    Safe (passwordProof kdf safePrimeCheck info password) fun _ => True := by
  refine (passwordParameters_safe info).bind fun params husable => ?_
  obtain ⟨b, hb, hlength⟩ := husable.srpB
  refine (Safe.require _ _).bind fun b' hb' => ?_
  obtain rfl := Option.some.inj (hb.symm.trans hb')
  have hrange : Safe (outOfRange params.p b : Except (Fault IoError) Bool) fun _ => True := by
    refine .ite (fun _ => ?_) fun _ => trivial
    rw [padTo256_of_le hlength]
    trivial
  refine hrange.bind fun unusable _ => .ite (fun _ => .ok trivial) fun _ => ?_
  refine .ite (fun _ => .ok trivial) fun hchecked => ?_
  rw [Bool.not_eq_true', Bool.not_eq_false] at hchecked
  obtain ⟨hp, hpos, hg, hg'⟩ := checkPAndG_length hchecked
  rw [calculate2fa_ok kdf _ _ password hp hpos hg hg' hlength husable.secureRandom]
  exact (Safe.require _ _).bind fun _ _ => .ok trivial

/-- The client and the server come to the same secret and so to the same proof, and a password that
was read never makes the client panic. -/
theorem srp_agreement (kdf : Kdf) (safePrimeCheck : Nat → Option Bool) :
    (∀ (password salt1 salt2 p a gB : Bytes) (g : Int32) (b : Nat), p.length = 256 →
      1 < BigEndian.ofBytes p → 2 ≤ g → g ≤ 7 → a.length ≤ 256 → gB.length ≤ 256 →
      let n := BigEndian.ofBytes p
      let gen := g.toInt.toNat
      let x := passwordKey kdf password salt1 salt2
      let v := verifier n gen x
      let k := multiplier kdf p gen
      let gA := gen ^ BigEndian.ofBytes a % n
      BigEndian.ofBytes gB = blinded n gen k v b →
      let u := scrambler kdf gA (BigEndian.ofBytes gB)
      clientSecret n gen k u x (BigEndian.ofBytes a) (BigEndian.ofBytes gB) =
        serverSecret n v u b gA ∧
      calculate2fa kdf salt1 salt2 p g gB a password =
        (.ok (proof kdf salt1 salt2 p gen gA (BigEndian.ofBytes gB)
          (clientSecret n gen k u x (BigEndian.ofBytes a) (BigEndian.ofBytes gB)), padded gA) :
          Except (Fault IoError) _) ∧
      calculate2fa kdf salt1 salt2 p g gB a password =
        (.ok (proof kdf salt1 salt2 p gen gA (BigEndian.ofBytes gB) (serverSecret n v u b gA),
          padded gA) : Except (Fault IoError) _)) ∧
    (∀ (info : Password) (params : PasswordParameters) (gB password : Bytes),
      passwordParameters info = .ok params → info.srpB = some gB →
      checkPAndG safePrimeCheck params.p params.g = true →
      ∃ r : Digest × Padded, calculate2fa kdf params.salt1 params.salt2 params.p params.g gB
        info.secureRandom password = (.ok r : Except (Fault IoError) _)) ∧
    ∀ (info : Password) (password : Bytes),
      passwordProof kdf safePrimeCheck info password ≠ .error .panic := by
  refine ⟨?_, ?_, fun info password => (passwordProof_safe kdf safePrimeCheck info password).ne_panic⟩
  · intro password salt1 salt2 p a gB g b hp hpos hg hg' ha hlength n gen x v k gA hgB u
    have hsecret : clientSecret n gen k u x (BigEndian.ofBytes a) (BigEndian.ofBytes gB) =
        serverSecret n v u b gA := by
      rw [hgB]
      exact clientSecret_eq n gen k u x (BigEndian.ofBytes a) b
    have hclient := calculate2fa_ok (ε := IoError) kdf salt1 salt2 password hp
      (Nat.lt_of_succ_lt hpos) hg hg' hlength ha
    refine ⟨hsecret, hclient, ?_⟩
    rw [← hsecret]
    exact hclient
  · intro info params gB password hparams hsome hchecked
    have husable := passwordParameters_safe info
    rw [hparams] at husable
    obtain ⟨b, hb, hlength⟩ := Usable.srpB husable
    obtain rfl := Option.some.inj (hb.symm.trans hsome)
    obtain ⟨hp, hpos, hg, hg'⟩ := checkPAndG_length hchecked
    exact ⟨_, calculate2fa_ok kdf _ _ password hp hpos hg hg' hlength husable.secureRandom⟩

/-- A modulus of one byte, with hashes that are all alike. -/
theorem srp_agreement_small :
    let kdf : Kdf := ⟨fun _ => ⟨List.replicate 31 0 ++ [2], rfl⟩,
      fun _ _ => ⟨List.replicate 64 0, List.length_replicate⟩⟩
    let p := BigEndian.toBytes 256 23
    ∃ m1, calculate2fa kdf [1] [2] p 3 [21] [4] [7] =
      (.ok (m1, padded 12) : Except (Fault IoError) _) := by
  intro kdf p
  have hp : BigEndian.ofBytes p = 23 := ofBytes_padded (by decide)
  obtain ⟨-, -, h⟩ := (srp_agreement kdf fun _ => none).1 [7] [1] [2] p [4] [21] 3 1
    (BigEndian.length_toBytes 256 23) (by rw [hp]; decide) (by decide) (by decide) (by decide)
    (by decide) (by rw [hp]; rfl)
  rw [hp] at h
  exact ⟨_, h⟩

end TwoFactorAuth

end Grammers
