import Grammers.Factorize
import Grammers.MillerRabin

namespace Grammers

open Checked

namespace Factorize

variable {ε : Type}

theorem mul_ok {width a b : Nat} (h : a * b < 2 ^ width) :
    mul width a b = (.ok (a * b) : Except (Fault ε) Nat) := if_pos h

theorem add_ok {width a b : Nat} (h : a + b < 2 ^ width) :
    add width a b = (.ok (a + b) : Except (Fault ε) Nat) := if_pos h

theorem div_ok {a b : Nat} (h : 0 < b) : div a b = (.ok (a / b) : Except (Fault ε) Nat) :=
  if_neg h.ne'

theorem rem_ok {a b : Nat} (h : 0 < b) : rem a b = (.ok (a % b) : Except (Fault ε) Nat) :=
  if_neg h.ne'

theorem gcd_eq (a b : Nat) : gcd a b = Nat.gcd a b := by
  fun_induction gcd a b with
  | case1 a => rw [Nat.gcd_zero_right]
  | case2 a b hb ih => rw [ih, Nat.gcd_comm a b, Nat.gcd_rec b a, Nat.gcd_comm]

/-- Two numbers below a modulus of one word have a product of two. -/
theorem mul_mod_ok {a b m : Nat} (hm : m ≤ 2 ^ 64) (ha : a < m) (hb : b < m) :
    mul 128 a b = (.ok (a * b) : Except (Fault ε) Nat) := by
  refine mul_ok ?_
  calc a * b < m * m := Nat.mul_lt_mul'' ha hb
    _ ≤ 2 ^ 64 * 2 ^ 64 := Nat.mul_le_mul hm hm

theorem modpowLoop_eq {m : Nat} (hm : m ≤ 2 ^ 64) (e : Nat) :
    ∀ result n, result < m → n < m →
      modpowLoop m result n e = (.ok (result * n ^ e % m) : Except (Fault ε) Nat) := by
  induction e using Nat.strong_induction_on with
  | _ e ih =>
    intro result n hresult hn
    have hpos : 0 < m := Nat.zero_lt_of_lt hn
    rw [modpowLoop]
    by_cases he : e = 0
    · rw [if_pos he, he, pow_zero, Nat.mul_one, Nat.mod_eq_of_lt hresult]
    · have hrest := ih (e / 2) (by omega)
      have hsquare : (n * n % m) ^ (e / 2) % m = n ^ (2 * (e / 2)) % m := by
        rw [← Nat.pow_mod, pow_mul, sq]
      rw [if_neg he]
      by_cases hodd : e % 2 = 1
      · have hsplit : n ^ e = n * n ^ (2 * (e / 2)) := by
          rw [← pow_succ']
          congr 1
          omega
        rw [if_pos hodd]
        simp only [mul_mod_ok hm hresult hn, mul_mod_ok hm hn hn, rem_ok hpos, Bind.bind, Except.bind]
        rw [hrest _ _ (Nat.mod_lt _ hpos) (Nat.mod_lt _ hpos), Nat.mul_mod, Nat.mod_mod, hsquare,
          ← Nat.mul_mod, hsplit, Nat.mul_assoc]
      · have hsplit : e = 2 * (e / 2) := by omega
        rw [if_neg hodd]
        simp only [mul_mod_ok hm hn hn, rem_ok hpos, Bind.bind, Except.bind]
        rw [hrest _ _ hresult (Nat.mod_lt _ hpos), Nat.mul_mod, hsquare, ← Nat.mul_mod, ← hsplit]

theorem modpow_eq {m : Nat} (hpos : 0 < m) (hm : m ≤ 2 ^ 64) (n e : Nat) :
    modpow n e m = (.ok (n ^ e % m) : Except (Fault ε) Nat) := by
  unfold modpow
  split
  next hone => rw [hone, Nat.mod_one]
  next hone =>
    simp only [rem_ok hpos, Bind.bind, Except.bind]
    rw [modpowLoop_eq hm e _ _ (by omega) (Nat.mod_lt n hpos), Nat.one_mul, ← Nat.pow_mod]

/-! The test for prime numbers. -/

theorem trailingZeros_split {n : Nat} (h : 0 < n) : n = 2 ^ trailingZeros n * (n / 2 ^ trailingZeros n) := by
  have hdvd : 2 ^ trailingZeros n ∣ n := by
    fun_induction trailingZeros n with
    | case1 => exact absurd h (Nat.lt_irrefl 0)
    | case2 n hn hodd => rw [pow_zero]; exact one_dvd n
    | case3 n hn heven ih =>
      have hhalf := Nat.mul_dvd_mul_right (ih (by omega)) 2
      rwa [← pow_succ, Nat.div_mul_cancel (by omega)] at hhalf
  rw [Nat.mul_div_cancel' hdvd]

theorem trailingZeros_pos {n : Nat} (h : 0 < n) (heven : n % 2 = 0) : 0 < trailingZeros n := by
  rw [trailingZeros, if_neg h.ne', if_neg (by omega)]
  exact Nat.succ_pos _

theorem witness_eq {n : Nat} (hn : n ≤ 2 ^ 64) (k : Nat) : ∀ x, x < n →
    ∃ b, witness n k x = (.ok b : Except (Fault ε) Bool) ∧
      (b = false ↔ ∃ i < k, x ^ 2 ^ (i + 1) % n = n - 1) := by
  induction k with
  | zero => exact fun x _ => ⟨true, rfl, by simp⟩
  | succ k ih =>
    intro x hx
    have hpos : 0 < n := Nat.zero_lt_of_lt hx
    simp only [witness, mul_mod_ok hn hx hx, rem_ok hpos, Bind.bind, Except.bind]
    by_cases hsquare : x * x % n = n - 1
    · rw [if_pos hsquare]
      refine ⟨false, rfl, iff_of_true rfl ⟨0, Nat.succ_pos k, ?_⟩⟩
      rwa [Nat.zero_add, pow_one, sq]
    · obtain ⟨b, hb, hiff⟩ := ih (x * x % n) (Nat.mod_lt _ hpos)
      have hpow : ∀ i, (x * x % n) ^ 2 ^ (i + 1) % n = x ^ 2 ^ (i + 1 + 1) % n := by
        intro i
        rw [← Nat.pow_mod, ← sq, ← pow_mul, ← pow_succ']
      rw [if_neg hsquare]
      refine ⟨b, hb, hiff.trans ⟨?_, ?_⟩⟩
      · rintro ⟨i, hi, hminus⟩
        exact ⟨i + 1, Nat.succ_lt_succ hi, (hpow i).symm.trans hminus⟩
      · rintro ⟨i, hi, hminus⟩
        cases i with
        | zero =>
          rw [Nat.zero_add, pow_one, sq] at hminus
          exact absurd hminus hsquare
        | succ i => exact ⟨i, Nat.lt_of_succ_lt_succ hi, (hpow i).trans hminus⟩

/-- The bases that a number has to look prime to. -/
def Passes (n s d : Nat) (tests : List Nat) : Prop :=
  ∀ a ∈ tests, n ∣ a ∨ StrongProbablePrime n s d a

theorem testBases_eq {n s d : Nat} (hn : 2 < n) (hn' : n ≤ 2 ^ 64) (hs : 0 < s) (tests : List Nat) :
    ∃ b, testBases n s d tests = (.ok b : Except (Fault ε) Bool) ∧
      (b = true ↔ Passes n s d tests) := by
  induction tests with
  | nil => exact ⟨true, rfl, by simp [Passes]⟩
  | cons a rest ih =>
    obtain ⟨b, hb, hiff⟩ := ih
    have hpos : 0 < n := by omega
    have hcons : Passes n s d (a :: rest) ↔
        (n ∣ a ∨ StrongProbablePrime n s d a) ∧ Passes n s d rest := List.forall_mem_cons
    simp only [testBases, rem_ok hpos, Bind.bind, Except.bind]
    by_cases hdvd : a % n = 0
    · rw [if_pos hdvd]
      exact ⟨b, hb, hiff.trans (by rw [hcons, Nat.dvd_iff_mod_eq_zero]; simp [hdvd])⟩
    · rw [if_neg hdvd]
      simp only [modpow_eq hpos hn']
      by_cases hfirst : a ^ d % n = 1 ∨ a ^ d % n = n - 1
      · rw [if_pos hfirst]
        have hlooks : StrongProbablePrime n s d a := by
          rcases hfirst with hone | hminus
          · exact Or.inl hone
          · exact Or.inr ⟨0, hs, by rwa [pow_zero, Nat.one_mul]⟩
        exact ⟨b, hb, hiff.trans (by rw [hcons]; simp [hlooks])⟩
      · rw [if_neg hfirst]
        obtain ⟨composite, hwitness, hsquares⟩ :=
          witness_eq (ε := ε) hn' (s - 1) (a ^ d % n) (Nat.mod_lt _ hpos)
        have hlooks : composite = false ↔ StrongProbablePrime n s d a := by
          rw [hsquares]
          have hpow : ∀ i, (a ^ d % n) ^ 2 ^ (i + 1) % n = a ^ (2 ^ (i + 1) * d) % n := by
            intro i
            rw [← Nat.pow_mod, ← pow_mul, Nat.mul_comm d]
          constructor
          · rintro ⟨i, hi, hminus⟩
            exact Or.inr ⟨i + 1, by omega, (hpow i).symm.trans hminus⟩
          · rintro (hone | ⟨i, hi, hminus⟩)
            · exact absurd (Or.inl hone) hfirst
            · cases i with
              | zero =>
                rw [pow_zero, Nat.one_mul] at hminus
                exact absurd (Or.inr hminus) hfirst
              | succ i => exact ⟨i, by omega, (hpow i).trans hminus⟩
        have hnot : ¬n ∣ a := by rwa [Nat.dvd_iff_mod_eq_zero]
        simp only [hwitness]
        cases composite with
        | false =>
          refine ⟨b, hb, hiff.trans ?_⟩
          rw [hcons]
          simp [hlooks.mp rfl]
        | true =>
          refine ⟨false, rfl, iff_of_false nofun ?_⟩
          rw [hcons]
          rintro ⟨hdiv | hsp, -⟩
          · exact hnot hdiv
          · cases hlooks.mpr hsp

/-- The numbers that the test takes for prime. -/
theorem isPrime_eq {n : Nat} (hn : n < 2 ^ 64) :
    ∃ b, isPrime n = (.ok b : Except (Fault ε) Bool) ∧ (b = true ↔ n = 2 ∨ 2 < n ∧ n % 2 = 1 ∧
      Passes n (trailingZeros (n - 1)) ((n - 1) / 2 ^ trailingZeros (n - 1)) bases) := by
  unfold isPrime
  split
  next h =>
    refine ⟨_, rfl, decide_eq_true_iff.trans ⟨Or.inl, ?_⟩⟩
    rintro (htwo | ⟨hlt, hodd, -⟩)
    · exact htwo
    · omega
  next h =>
    have hs : 0 < trailingZeros (n - 1) := trailingZeros_pos (by omega) (by omega)
    obtain ⟨b, hb, hiff⟩ := testBases_eq (ε := ε) (n := n) (d := (n - 1) / 2 ^ trailingZeros (n - 1))
      (by omega) hn.le hs bases
    refine ⟨b, hb, hiff.trans ⟨fun hpass => Or.inr ⟨by omega, by omega, hpass⟩, ?_⟩⟩
    rintro (htwo | ⟨-, -, hpass⟩)
    · omega
    · exact hpass

/-- The test takes each prime number for what it is. -/
theorem isPrime_of_prime {p : Nat} (hp : p.Prime) (h : p < 2 ^ 64) :
    isPrime p = (.ok true : Except (Fault ε) Bool) := by
  obtain ⟨b, hb, hiff⟩ := isPrime_eq (ε := ε) h
  have htrue : b = true := by
    refine hiff.mpr ?_
    rcases hp.eq_two_or_odd with htwo | hodd
    · exact Or.inl htwo
    · have hpos := hp.two_le
      refine Or.inr ⟨by omega, hodd, fun a _ => ?_⟩
      by_cases hdvd : p ∣ a
      · exact Or.inl hdvd
      · exact Or.inr (.of_prime hp (trailingZeros_split (by omega)) hdvd)
  rw [hb, htrue]

/-- No composite number of one word looks prime to all of the bases. -/
def BasesSuffice : Prop :=
  ∀ n, 2 < n → n < 2 ^ 64 → n % 2 = 1 → ¬n.Prime → ∃ a ∈ bases, ¬n ∣ a ∧
    ¬StrongProbablePrime n (trailingZeros (n - 1)) ((n - 1) / 2 ^ trailingZeros (n - 1)) a

theorem prime_of_isPrime (hbases : BasesSuffice) {n : Nat} (h : n < 2 ^ 64)
    (haccept : isPrime n = (.ok true : Except (Fault ε) Bool)) : n.Prime := by
  obtain ⟨b, hb, hiff⟩ := isPrime_eq (ε := ε) h
  rw [hb] at haccept
  rcases hiff.mp (Except.ok.inj haccept) with rfl | ⟨hlt, hodd, hpass⟩
  · exact Nat.prime_two
  · by_contra hprime
    obtain ⟨a, ha, hdvd, hlooks⟩ := hbases n hlt h hodd hprime
    rcases hpass a ha with h | h
    · exact hdvd h
    · exact hlooks h

/-! The search for a factor. -/

/-- An action that takes at least so much work, counts it, and stops only where there is no more. -/
structure Runs {α : Type} (m : Search α) (n : Nat) (P : α → Prop) (s : Budget) : Prop where
  ok : ∀ v s', m s = .ok v s' →
    P v ∧ s'.work + n ≤ s.work ∧ s'.work + s'.steps = s.work + s.steps
  error : ∀ e s', m s = .error e s' →
    e = .error () ∧ s'.work ≤ s.work ∧ s'.work + s'.steps = s.work + s.steps

namespace Runs

variable {α β : Type} {m : Search α} {k : α → Search β} {n u : Nat} {P : α → Prop} {Q : β → Prop}
  {s : Budget}

theorem pure {v : α} (h : P v) : Runs (Pure.pure v) 0 P s := by
  constructor
  · intro v' s' hrun
    cases hrun
    exact ⟨h, Nat.le_refl _, rfl⟩
  · intro e s' hrun
    cases hrun

theorem lift {x : Except Stop α} {v : α} (hx : x = .ok v) (h : P v) :
    Runs (Factorize.lift x) 0 P s := by
  subst hx
  exact pure h

theorem bind (h : Runs m n P s) (h' : ∀ v s', P v → s'.work + n ≤ s.work → Runs (k v) u Q s') :
    Runs (m >>= k) (n + u) Q s := by
  constructor
  · intro w s'' hrun
    change EStateM.bind m k s = _ at hrun
    unfold EStateM.bind at hrun
    split at hrun
    next v s' hm =>
      obtain ⟨hv, hwork, hsum⟩ := h.ok v s' hm
      obtain ⟨hw, hwork', hsum'⟩ := (h' v s' hv hwork).ok w s'' hrun
      exact ⟨hw, by omega, hsum'.trans hsum⟩
    next => cases hrun
  · intro e s'' hrun
    change EStateM.bind m k s = _ at hrun
    unfold EStateM.bind at hrun
    split at hrun
    next v s' hm =>
      obtain ⟨hv, hwork, hsum⟩ := h.ok v s' hm
      obtain ⟨he, hwork', hsum'⟩ := (h' v s' hv hwork).error e s'' hrun
      exact ⟨he, by omega, hsum'.trans hsum⟩
    next e' s' hm =>
      obtain ⟨rfl, rfl⟩ := EStateM.Result.error.inj hrun
      exact h.error _ _ hm

theorem mono (h : Runs m n P s) (hn : u ≤ n) {R : α → Prop} (hp : ∀ v, P v → R v) :
    Runs m u R s := by
  refine ⟨fun v s' hrun => ?_, h.error⟩
  obtain ⟨hv, hwork, hsum⟩ := h.ok v s' hrun
  exact ⟨hp v hv, by omega, hsum⟩

theorem get {k : Budget → Search α} (h : Runs (k s) n P s) : Runs (MonadState.get >>= k) n P s :=
  ⟨h.ok, h.error⟩

end Runs

variable {s : Budget} {pq c : Nat}

theorem runs_spend : Runs spend 1 (fun _ => True) s := by
  obtain ⟨work, steps⟩ := s
  cases work with
  | zero =>
    constructor
    · intro v s' hrun
      cases hrun
    · intro e s' hrun
      cases hrun
      exact ⟨rfl, Nat.le_refl _, rfl⟩
  | succ work =>
    constructor
    · intro v s' hrun
      cases hrun
      exact ⟨trivial, Nat.le_refl _, by simp only; omega⟩
    · intro e s' hrun
      cases hrun

/-- The sequence stays below the number that is factored. -/
theorem runs_next (hpos : 0 < pq) (hpq : pq < 2 ^ 64) (hc : c < 2 ^ 64) (y : Nat) :
    Runs (next pq c y) 1 (· < pq) s := by
  refine runs_spend.bind (u := 0) fun _ _ _ _ => .lift ?_ (Nat.mod_lt (y ^ 2 % pq + c) hpos)
  have hsum : y ^ 2 % pq + c < 2 ^ 128 := by
    have := Nat.mod_lt (y ^ 2) hpos
    omega
  simp only [modpow_eq hpos hpq.le, Bind.bind, Except.bind, add_ok hsum, rem_ok hpos]

theorem runs_advance (hpos : 0 < pq) (hpq : pq < 2 ^ 64) (hc : c < 2 ^ 64) (n : Nat) :
    ∀ y s, y < pq → Runs (advance pq c n y) n (· < pq) s := by
  induction n with
  | zero => exact fun y s hy => .pure hy
  | succ n ih =>
    intro y s hy
    have hrun := (runs_next (s := s) hpos hpq hc y).bind (k := advance pq c n)
      fun y s' hy _ => ih y s' hy
    rwa [Nat.add_comm 1 n] at hrun

theorem absSub_lt {x y : Nat} (hx : x < pq) (hy : y < pq) : absSub x y < pq := by
  unfold absSub
  omega

theorem runs_batch (hpos : 0 < pq) (hpq : pq < 2 ^ 64) (hc : c < 2 ^ 64) {x : Nat} (hx : x < pq)
    (n : Nat) : ∀ y q s, y < pq → q < pq →
      Runs (batch pq c x n y q) n (fun r => r.1 < pq ∧ r.2 < pq) s := by
  induction n with
  | zero => exact fun y q s hy hq => .pure ⟨hy, hq⟩
  | succ n ih =>
    intro y q s hy hq
    have hproduct : ∀ y < pq, (do
        let product ← mul 128 q (absSub x y)
        rem product pq) = (.ok (q * absSub x y % pq) : Except Stop Nat) := by
      intro y hy
      simp only [mul_mod_ok hpq.le hq (absSub_lt hx hy), Bind.bind, Except.bind, rem_ok hpos]
    have hrun := (runs_next (s := s) hpos hpq hc y).bind (k := fun y => do
        let q ← lift do
          let product ← mul 128 q (absSub x y)
          rem product pq
        batch pq c x n y q)
      fun y s' hy _ => (Runs.lift (P := (· < pq)) (hproduct y hy)
        (Nat.mod_lt _ hpos)).bind
        fun q s'' hq _ => ih y q s'' hy hq
    rw [Nat.zero_add, Nat.add_comm 1 n] at hrun
    exact hrun

/-- What each round keeps. -/
structure Round.Below (pq : Nat) (r : Round) : Prop where
  y : r.y < pq
  q : r.q < pq
  ys : r.ys < pq
  g : 0 < r.g

theorem runs_batches (hpos : 0 < pq) (hpq : pq < 2 ^ 64) (hc : c < 2 ^ 64) {x : Nat} (hx : x < pq)
    (r k : Nat) (b : Round) : ∀ s, b.Below pq → Runs (batches pq c x r k b) 0 (Round.Below pq) s := by
  fun_induction batches pq c x r k b with
  | case1 k b hk ih =>
    intro s hb
    refine (runs_batch hpos hpq hc hx _ b.y b.q s hb.y hb.q).bind (u := 0)
      (fun yq s' hyq _ => ih yq.1 yq.2 s' ⟨hyq.1, hyq.2, hb.y, ?_⟩) |>.mono (Nat.zero_le _)
      fun _ h => h
    rw [gcd_eq]
    exact Nat.gcd_pos_of_pos_right _ hpos
  | case2 k b hk => exact fun s hb => .pure hb

theorem runs_rounds (hpos : 0 < pq) (hpq : pq < 2 ^ 64) (hc : c < 2 ^ 64) (more : Nat) :
    ∀ (r : Nat) (b : Round) (s : Budget), 0 < r → s.work < more → s.work ≤ workLimit →
      b.Below pq → Runs (rounds pq c more r b) 0 (fun p => p.1 < pq ∧ p.2.Below pq) s := by
  induction more with
  | zero => exact fun r b s _ hwork => absurd hwork (Nat.not_lt_zero _)
  | succ more ih =>
    intro r b s hr hwork hlimit hb
    refine (Runs.bind (runs_advance hpos hpq hc r b.y s hb.y) (u := 0)
      fun y s₁ hy hwork₁ => ?_).mono (Nat.zero_le _) fun _ h => h
    refine Runs.bind (n := 0) (u := 0) (runs_batches hpos hpq hc hb.y r 0 _ s₁ ⟨hy, hb.q, hb.ys, hb.g⟩)
      fun b' s₂ hb' hwork₂ => ?_
    have hdouble : r * 2 < 2 ^ 128 := by
      unfold workLimit at hlimit
      omega
    refine Runs.bind (P := fun r' => r' = r * 2) (n := 0) (u := 0) (.lift (mul_ok hdouble) rfl)
      fun r' s₃ hr' hwork₃ => ?_
    subst hr'
    split
    · exact ih (r * 2) b' s₃ (by omega) (by omega) (by omega) hb'
    · exact .pure ⟨hb.y, hb'⟩

theorem runs_replay (hpos : 0 < pq) (hpq : pq < 2 ^ 64) (hc : c < 2 ^ 64) (x more : Nat) :
    ∀ (ys : Nat) (s : Budget), s.work < more → Runs (replay pq c x more ys) 0 (0 < ·) s := by
  induction more with
  | zero => exact fun ys s hwork => absurd hwork (Nat.not_lt_zero _)
  | succ more ih =>
    intro ys s hwork
    refine (Runs.bind (runs_next hpos hpq hc ys) (u := 0) fun ys s₁ _ hwork₁ => ?_).mono
      (Nat.zero_le _) fun _ h => h
    simp only
    split
    next hg => exact .pure (Nat.lt_trans Nat.one_pos hg)
    next => exact ih ys s₁ (by omega)

/-- The factors come in order, and nothing goes wrong on the way. -/
theorem runs_factorizeWithParam (hpos : 4 ≤ pq) (hpq : pq < 2 ^ 64) (hc : c < 2 ^ 64)
    (hlimit : s.work ≤ workLimit) :
    Runs (factorizeWithParam pq c) 0 (fun r => r.1 ≤ r.2) s := by
  have hpos' : 0 < pq := by omega
  unfold factorizeWithParam
  split
  · exact .pure (by simp only; omega)
  · refine .get (Runs.bind (n := 0) (u := 0) (runs_rounds hpos' hpq hc (s.work + 1) 1 _ s Nat.one_pos
      (Nat.lt_succ_self _) hlimit ⟨by simp only; omega, by simp only; omega, hpos', Nat.one_pos⟩)
      fun xb s₁ hxb hwork₁ => .get ?_)
    have hend : ∀ g s, 0 < g → Runs (do
        let other ← lift (div pq g)
        let p := g % 2 ^ 64
        let q := other % 2 ^ 64
        pure (min p q, max p q)) 0 (fun r => r.1 ≤ r.2) s := fun g s hg =>
      Runs.bind (n := 0) (u := 0) (P := fun _ => True) (.lift (div_ok hg) trivial)
        fun other s' _ _ => .pure (min_le_max)
    simp only
    split
    · exact Runs.bind (n := 0) (u := 0)
        (runs_replay hpos' hpq hc xb.1 _ xb.2.ys s₁ (Nat.lt_succ_self _))
        fun g s₂ hg _ => hend g s₂ hg
    · exact Runs.bind (n := 0) (u := 0) (P := (0 < ·)) (.pure hxb.2.g)
        fun g s₂ hg _ => hend g s₂ hg

/-! The attempts. -/

/-- Two factors that the test takes for prime. -/
structure Factors (pq p q : Nat) : Prop where
  one_lt : 1 < p
  le : p ≤ q
  mul : p * q = pq
  left : isPrime p = (.ok true : Except (Fault Unit) Bool)
  right : isPrime q = (.ok true : Except (Fault Unit) Bool)

theorem Factors.of_thenSome {prime : Bool} {p q p' q' : Nat}
    (h : thenSome prime p q = some (p', q')) : prime = true ∧ p = p' ∧ q = q' := by
  cases prime with
  | false => cases h
  | true =>
    cases h
    exact ⟨rfl, rfl, rfl⟩

theorem isPrime_ok {n : Nat} (hn : n < 2 ^ 64) :
    ∃ b, isPrime n = (.ok b : Except (Fault Unit) Bool) := by
  obtain ⟨b, hb, -⟩ := isPrime_eq (ε := Unit) hn
  exact ⟨b, hb⟩

theorem tryAttempts_ok (hpos : 4 ≤ pq) (hpq : pq < 2 ^ 64) (tries : List Nat) :
    ∀ s : Budget, (∀ attempt ∈ tries, attempt ≤ 103) → s.work ≤ workLimit →
      ∃ r s', tryAttempts pq tries s = .ok (r, s') ∧ s'.work + s'.steps = s.work + s.steps ∧
        ∀ p q, r = some (p, q) → Factors pq p q := by
  induction tries with
  | nil => exact fun s _ _ => ⟨none, s, rfl, rfl, nofun⟩
  | cons attempt rest ih =>
    intro s htries hlimit
    obtain ⟨hattempt, hrest⟩ := List.forall_mem_cons.mp htries
    have hle : attempt * (pq / 103) ≤ pq :=
      (Nat.mul_le_mul_right _ hattempt).trans (Nat.mul_div_le pq 103)
    have hproduct : attempt * (pq / 103) < 2 ^ 64 := by omega
    have hc : max (attempt * (pq / 103)) 1 < 2 ^ 64 := by omega
    have hruns := runs_factorizeWithParam (s := s) hpos hpq hc hlimit
    simp only [tryAttempts, mul_ok hproduct, Bind.bind, Except.bind]
    cases hfound : factorizeWithParam pq (max (attempt * (pq / 103)) 1) s with
    | error e s' =>
      obtain ⟨rfl, hwork, hsum⟩ := hruns.error e s' hfound
      obtain ⟨r, s'', htry, hsum', hfactors⟩ := ih s' hrest (hwork.trans hlimit)
      exact ⟨r, s'', htry, hsum'.trans hsum, hfactors⟩
    | ok found s' =>
      obtain ⟨p, q⟩ := found
      obtain ⟨hpq', hwork, hsum⟩ := hruns.ok _ s' hfound
      simp only
      split
      next hfactors =>
        obtain ⟨hp, hq, hmul⟩ := hfactors
        have hple : p ≤ pq := hmul ▸ Nat.le_mul_of_pos_right p (by omega)
        have hqle : q ≤ pq := hmul ▸ Nat.le_mul_of_pos_left q (by omega)
        obtain ⟨b, hb⟩ := isPrime_ok (show p < 2 ^ 64 by omega)
        obtain ⟨b', hb'⟩ := isPrime_ok (show q < 2 ^ 64 by omega)
        simp only [hb]
        cases b with
        | false => exact ⟨none, s', rfl, hsum, nofun⟩
        | true =>
          simp only [hb', ↓reduceIte]
          refine ⟨_, s', rfl, hsum, fun p' q' hsome => ?_⟩
          obtain ⟨rfl, rfl, rfl⟩ := Factors.of_thenSome hsome
          exact ⟨hp, hpq', hmul, hb, hb'⟩
      next =>
        obtain ⟨r, s'', htry, hsum', hfactors⟩ := ih s' hrest (by omega)
        exact ⟨r, s'', htry, hsum'.trans hsum, hfactors⟩

theorem prime_of_mem_smallPrimes : ∀ p ∈ smallPrimes, p.Prime := by
  decide

theorem mem_smallPrimes_of_prime {p : Nat} (hp : p.Prime) (h : p ≤ 97) : p ∈ smallPrimes := by
  revert hp
  interval_cases p <;> decide

/-- The first divisor decides. -/
theorem trySmall_eq (pq : Nat) (l : List Nat) (hpq : pq < 2 ^ 64) :
    (trySmall pq l = (.ok none : Except (Fault Unit) _) ∧ ∀ p ∈ l, ¬(p * p ≤ pq ∧ pq % p = 0)) ∨
    ∃ p ∈ l, ∃ b, p * p ≤ pq ∧ pq % p = 0 ∧
      isPrime (pq / p) = (.ok b : Except (Fault Unit) Bool) ∧
      trySmall pq l = (.ok (some (thenSome b p (pq / p))) : Except (Fault Unit) _) := by
  induction l with
  | nil => exact Or.inl ⟨rfl, by simp⟩
  | cons p rest ih =>
    unfold trySmall
    split
    next h =>
      obtain ⟨b, hb⟩ := isPrime_ok (show pq / p < 2 ^ 64 from (Nat.div_le_self pq p).trans_lt hpq)
      refine Or.inr ⟨p, List.mem_cons_self, b, h.1, h.2, hb, ?_⟩
      simp only [hb, Bind.bind, Except.bind]
    next h =>
      rcases ih with ⟨hnone, hall⟩ | ⟨p', hp', b, hrest⟩
      · exact Or.inl ⟨hnone, List.forall_mem_cons.mpr ⟨h, hall⟩⟩
      · exact Or.inr ⟨p', List.mem_cons_of_mem p hp', b, hrest⟩

/-- What a result says of a number. -/
structure Sound (n : Nat) (r : Option (Nat × Nat)) : Prop where
  factors : ∀ p q, r = some (p, q) → Factors n p q
  prime : n.Prime → r = none
  small : ∀ p q, p.Prime → q.Prime → p ≤ 97 → p * q = n → r = some (min p q, max p q)
  square : BasesSuffice → ∀ p, p.Prime → p * p = n → r = some (p, p)

/-- Two primes, of which one is a small divisor that was found. -/
theorem thenSome_of_primes {n p q d : Nat} {b : Bool} (hn : n < 2 ^ 64) (hp : p.Prime)
    (hq : q.Prime) (hmul : p * q = n) (hd : d.Prime) (hsquare : d * d ≤ n) (hdvd : n % d = 0)
    (hb : isPrime (n / d) = (.ok b : Except (Fault Unit) Bool)) :
    thenSome b d (n / d) = some (min p q, max p q) := by
  have hother : ∀ p q : Nat, q.Prime → p * q = n → d = p →
      thenSome b d (n / d) = some (min p q, max p q) := by
    rintro p q hq hmul rfl
    have hdiv : n / d = q := by rw [← hmul, Nat.mul_div_cancel_left q hd.pos]
    have hle : d ≤ q := by
      rw [← hmul] at hsquare
      exact Nat.le_of_mul_le_mul_left hsquare hd.pos
    have hqn : q < 2 ^ 64 := by
      rw [← hdiv]
      exact (Nat.div_le_self n d).trans_lt hn
    rw [hdiv, isPrime_of_prime hq hqn] at hb
    obtain rfl := Except.ok.inj hb
    rw [hdiv, Nat.min_eq_left hle, Nat.max_eq_right hle]
    rfl
  rcases hd.dvd_mul.mp (hmul ▸ Nat.dvd_of_mod_eq_zero hdvd) with h | h
  · exact hother p q hq hmul ((Nat.prime_dvd_prime_iff_eq hd hp).mp h)
  · rw [min_comm, max_comm]
    exact hother q p hp (by rw [Nat.mul_comm, hmul]) ((Nat.prime_dvd_prime_iff_eq hd hq).mp h)

theorem sound_small {n d : Nat} {b : Bool} (hn : n < 2 ^ 64) (hd : d ∈ smallPrimes)
    (hsquare : d * d ≤ n) (hdvd : n % d = 0)
    (hb : isPrime (n / d) = (.ok b : Except (Fault Unit) Bool)) :
    Sound n (thenSome b d (n / d)) := by
  have hprime := prime_of_mem_smallPrimes d hd
  have hmul : d * (n / d) = n := Nat.mul_div_cancel' (Nat.dvd_of_mod_eq_zero hdvd)
  have hle : d ≤ n / d := (Nat.le_div_iff_mul_le hprime.pos).mpr hsquare
  constructor
  · intro p q hsome
    obtain ⟨rfl, rfl, rfl⟩ := Factors.of_thenSome hsome
    exact ⟨hprime.one_lt, hle, hmul, isPrime_of_prime hprime (by
      have := hle.trans (Nat.div_le_self n d)
      omega), hb⟩
  · intro hnprime
    obtain rfl := (Nat.prime_dvd_prime_iff_eq hprime hnprime).mp (Nat.dvd_of_mod_eq_zero hdvd)
    have := Nat.mul_lt_mul_of_pos_left hprime.one_lt hprime.pos
    omega
  · intro p q hp hq _ hpq
    exact thenSome_of_primes hn hp hq hpq hprime hsquare hdvd hb
  · intro _ p hp hpp
    have h := thenSome_of_primes hn hp hp hpp hprime hsquare hdvd hb
    rwa [min_self, max_self] at h

/-- Without a small divisor there is no small factor. -/
theorem no_small_factor {n p q : Nat} (h : ∀ d ∈ smallPrimes, ¬(d * d ≤ n ∧ n % d = 0))
    (hp : p.Prime) (hq : q.Prime) (hsmall : p ≤ 97) (hmul : p * q = n) : False := by
  rcases Nat.le_total p q with hle | hle
  · refine h p (mem_smallPrimes_of_prime hp hsmall) ⟨?_, ?_⟩
    · rw [← hmul]
      exact Nat.mul_le_mul_left p hle
    · rw [← hmul, Nat.mul_mod_right]
  · refine h q (mem_smallPrimes_of_prime hq (hle.trans hsmall)) ⟨?_, ?_⟩
    · rw [← hmul]
      exact Nat.mul_le_mul_right q hle
    · rw [← hmul, Nat.mul_mod_left]

theorem not_prime_mul_self {p : Nat} (hp : p.Prime) : ¬(p * p).Prime :=
  Nat.not_prime_mul hp.ne_one hp.ne_one

/-- The search ends with a result that is sound, and takes no more steps than it may. -/
theorem tryFactorize_sound {n : Nat} (hn : n < 2 ^ 64) :
    ∃ r s, tryFactorize n = .ok (r, s) ∧ s.work + s.steps = workLimit ∧ Sound n r := by
  unfold tryFactorize
  rcases trySmall_eq n smallPrimes hn with ⟨hnone, hall⟩ | ⟨d, hd, b, hsquare, hdvd, hb, hsmall⟩
  · simp only [hnone, Bind.bind, Except.bind]
    by_cases hfour : n < 4
    · simp only [if_pos hfour]
      refine ⟨none, _, rfl, rfl, nofun, fun _ => rfl, ?_, ?_⟩
      · exact fun p q hp hq hsmall hmul => (no_small_factor hall hp hq hsmall hmul).elim
      · intro _ p hp hmul
        have := Nat.mul_le_mul hp.two_le hp.two_le
        omega
    · obtain ⟨b, hb⟩ := isPrime_ok hn
      simp only [if_neg hfour, hb]
      cases b with
      | true =>
        refine ⟨none, _, rfl, rfl, nofun, fun _ => rfl, ?_, ?_⟩
        · exact fun p q hp hq hsmall hmul => (no_small_factor hall hp hq hsmall hmul).elim
        · rintro hbases p hp rfl
          exact (not_prime_mul_self hp (prime_of_isPrime hbases hn hb)).elim
      | false =>
        have hcomposite : ¬n.Prime := by
          intro hprime
          rw [isPrime_of_prime hprime hn] at hb
          cases hb
        have hroot : Nat.sqrt n * Nat.sqrt n < 2 ^ 64 := (Nat.sqrt_le n).trans_lt hn
        simp only [mul_ok hroot, Bool.false_eq_true, ↓reduceIte]
        by_cases hsquare : Nat.sqrt n * Nat.sqrt n = n
        · have hone : 1 < Nat.sqrt n := by
            by_contra hle
            have := Nat.mul_le_mul (not_lt.mp hle) (not_lt.mp hle)
            omega
          have hlt : Nat.sqrt n < 2 ^ 64 := (Nat.sqrt_le_self n).trans_lt hn
          obtain ⟨b, hb'⟩ := isPrime_ok hlt
          simp only [if_pos hsquare, hb']
          refine ⟨_, _, rfl, rfl, ?_, fun hprime => (hcomposite hprime).elim, ?_, ?_⟩
          · intro p q hsome
            obtain ⟨rfl, rfl, rfl⟩ := Factors.of_thenSome hsome
            exact ⟨hone, Nat.le_refl _, hsquare, hb', hb'⟩
          · exact fun p q hp hq hsmall hmul => (no_small_factor hall hp hq hsmall hmul).elim
          · rintro _ p hp rfl
            rw [Nat.sqrt_eq] at hb' hlt ⊢
            rw [isPrime_of_prime hp hlt] at hb'
            obtain rfl := Except.ok.inj hb'
            rfl
        · simp only [if_neg hsquare]
          obtain ⟨r, s, htry, hsum, hfactors⟩ :=
            tryAttempts_ok (not_lt.mp hfour) hn attempts ⟨workLimit, 0⟩ (by decide) (Nat.le_refl _)
          refine ⟨r, s, htry, hsum, hfactors, fun hprime => (hcomposite hprime).elim, ?_, ?_⟩
          · exact fun p q hp hq hsmall hmul => (no_small_factor hall hp hq hsmall hmul).elim
          · rintro _ p hp rfl
            rw [Nat.sqrt_eq] at hsquare
            exact absurd rfl hsquare
  · simp only [hsmall, Bind.bind, Except.bind]
    exact ⟨_, _, rfl, rfl, sound_small hn hd hsquare hdvd hb⟩

/-- Factorization ends within its work without a fault. What it finds are factors that look prime;
a prime number has none, and two primes of which one is small are found. If the bases suffice, the
factors are prime and the square of a prime is found. -/
theorem bounded_factorization_is_sound (pq : UInt64) :
    (∃ r s, tryFactorize pq.toNat = .ok (r, s) ∧ s.steps ≤ workLimit ∧
      (∀ p q, r = some (p, q) → 1 < p ∧ p ≤ q ∧ p * q = pq.toNat ∧
        isPrime p = (.ok true : Except (Fault Unit) Bool) ∧
        isPrime q = (.ok true : Except (Fault Unit) Bool)) ∧
      (pq.toNat.Prime → r = none) ∧
      (∀ p q, p.Prime → q.Prime → p ≤ 97 → p * q = pq.toNat → r = some (min p q, max p q)) ∧
      (BasesSuffice → ∀ p, p.Prime → p * p = pq.toNat → r = some (p, p)) ∧
      (BasesSuffice → ∀ p q, r = some (p, q) → p.Prime ∧ q.Prime)) ∧
    (pq.toNat.Prime → isPrime pq.toNat = (.ok true : Except (Fault Unit) Bool)) := by
  have hn : pq.toNat < 2 ^ 64 := pq.toNat_lt
  refine ⟨?_, fun hprime => isPrime_of_prime hprime hn⟩
  obtain ⟨r, s, htry, hsum, hsound⟩ := tryFactorize_sound hn
  refine ⟨r, s, htry, by omega, ?_, hsound.prime, hsound.small, hsound.square, ?_⟩
  · intro p q hsome
    obtain ⟨hp, hle, hmul, hleft, hright⟩ := hsound.factors p q hsome
    exact ⟨hp, hle, hmul, hleft, hright⟩
  · intro hbases p q hsome
    obtain ⟨hp, hle, hmul, hleft, hright⟩ := hsound.factors p q hsome
    have hqle : q ≤ pq.toNat := hmul ▸ Nat.le_mul_of_pos_left q (by omega)
    exact ⟨prime_of_isPrime hbases (by omega) hleft, prime_of_isPrime hbases (by omega) hright⟩

end Factorize

end Grammers
