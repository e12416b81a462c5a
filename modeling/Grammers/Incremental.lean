import Mathlib.Data.List.Basic
import Mathlib.Order.Basic
import Mathlib.Tactic.Common

namespace Incremental

variable {α ρ : Type}

/-- A reader that decides from what it has seen how much of the stream it has to see. -/
inductive Reader (α ρ : Type) where
  | done (r : ρ)
  | need (n : Nat) (next : List α → Reader α ρ)

namespace Reader

/-- What a reader makes of the stream received so far, once there is enough of it. -/
def run : Reader α ρ → List α → Option ρ
  | .done r, _ => some r
  | .need n next, b => if b.length < n then none else (next (b.take n)).run b

@[simp]
theorem run_done (r : ρ) (b : List α) : (done r).run b = some r := rfl

theorem run_need_of_lt {n : Nat} {b : List α} (next : List α → Reader α ρ) (h : b.length < n) :
    (need n next).run b = none := by
  simp [run, h]

theorem run_need_of_le {n : Nat} {b : List α} (next : List α → Reader α ρ) (h : n ≤ b.length) :
    (need n next).run b = (next (b.take n)).run b := by
  simp [run, Nat.not_lt.mpr h]

theorem run_need_some {n : Nat} {next : List α → Reader α ρ} {b : List α} {r : ρ}
    (h : (need n next).run b = some r) : n ≤ b.length ∧ (next (b.take n)).run b = some r := by
  rcases Nat.lt_or_ge b.length n with hlt | hle
  · rw [run_need_of_lt next hlt] at h
    simp at h
  · exact ⟨hle, by rwa [run_need_of_le next hle] at h⟩

/-- What has been read stays as it is, whatever follows. -/
theorem run_append {q : Reader α ρ} {b : List α} {r : ρ} (h : q.run b = some r) (rest : List α) :
    q.run (b ++ rest) = some r := by
  induction q with
  | done r' => exact h
  | need n next ih =>
    obtain ⟨hle, hnext⟩ := run_need_some h
    rw [run_need_of_le next (by simp; omega), List.take_append_of_le_length hle]
    exact ih _ hnext

/-- Two results read from the start of one stream are the same. -/
theorem run_eq_of_append {q : Reader α ρ} {b rest : List α} {r r' : ρ} (h : q.run b = some r)
    (h' : q.run (b ++ rest) = some r') : r = r' :=
  Option.some.inj ((run_append h rest).symm.trans h')

/-- No more than so much is ever asked for. -/
def Within (limit : Nat) : Reader α ρ → List α → Prop
  | .done _, _ => True
  | .need n next, b => n ≤ limit ∧ (n ≤ b.length → (next (b.take n)).Within limit b)

theorem Within.of_append {limit : Nat} {q : Reader α ρ} {b rest : List α}
    (h : q.Within limit (b ++ rest)) : q.Within limit b := by
  induction q with
  | done r => trivial
  | need n next ih =>
    refine ⟨h.1, fun hle => ih _ ?_⟩
    have hnext := h.2 (by simp; omega)
    rwa [List.take_append_of_le_length hle] at hnext

/-- A reader that asks for no more than it has comes to an end. -/
theorem Within.run_ne_none {limit : Nat} {q : Reader α ρ} {b : List α} (h : q.Within limit b)
    (hlen : limit ≤ b.length) : q.run b ≠ none := by
  induction q with
  | done r => simp
  | need n next ih =>
    obtain ⟨hn, hnext⟩ := h
    have hle : n ≤ b.length := Nat.le_trans hn hlen
    rw [run_need_of_le next hle]
    exact ih _ (hnext hle)

end Reader

/-! Taking one piece of a stream after another. -/

variable {σ β ε : Type}

/-- What can be taken from the front of a stream: nothing yet, or what it gives and how the
state and the stream go on, if they do. -/
structure Taker (σ α β ε : Type) where
  take : σ → List α → Option (List β × Except ε (σ × Nat))
  stable : ∀ s b r, take s b = some r → ∀ rest, take s (b ++ rest) = some r
  advances : ∀ s b out s' n, take s b = some (out, .ok (s', n)) → 0 < n ∧ n ≤ b.length

namespace Taker

variable (k : Taker σ α β ε)

/-- Take all there is; what is left is not enough for another piece. -/
def drain : Nat → σ → List α → List β × Except ε (σ × List α)
  | 0, s, b => ([], .ok (s, b))
  | fuel + 1, s, b =>
    match k.take s b with
    | none => ([], .ok (s, b))
    | some (out, .error e) => (out, .error e)
    | some (out, .ok (s', n)) =>
      let (outs, r) := drain fuel s' (b.drop n)
      (out ++ outs, r)

variable {k} {s s' : σ} {b rest : List α} {out outs : List β} {n fuel : Nat} {e : ε}

theorem drain_none (h : k.take s b = none) (fuel : Nat) : k.drain fuel s b = ([], .ok (s, b)) := by
  cases fuel with
  | zero => rfl
  | succ fuel => simp only [drain, h]

theorem drain_error (h : k.take s b = some (out, .error e)) (hfuel : 0 < fuel) :
    k.drain fuel s b = (out, .error e) := by
  obtain ⟨fuel, rfl⟩ := Nat.exists_eq_succ_of_ne_zero (Nat.ne_of_gt hfuel)
  simp only [drain, h]

theorem drain_ok (h : k.take s b = some (out, .ok (s', n))) (fuel : Nat) :
    k.drain (fuel + 1) s b =
      (out ++ (k.drain fuel s' (b.drop n)).1, (k.drain fuel s' (b.drop n)).2) := by
  simp only [drain, h]

/-- More fuel than there are elements makes no difference. -/
theorem drain_fuel (fuel extra : Nat) (s : σ) (b : List α) (hfuel : b.length < fuel) :
    k.drain (fuel + extra) s b = k.drain fuel s b := by
  induction fuel generalizing s b with
  | zero => omega
  | succ fuel ih =>
    rw [show fuel + 1 + extra = fuel + extra + 1 by omega]
    rcases h : k.take s b with _ | ⟨out, e | ⟨s', n⟩⟩
    · rw [drain_none h, drain_none h]
    · rw [drain_error h (by omega), drain_error h (by omega)]
    · have hn := k.advances s b out s' n h
      rw [drain_ok h, drain_ok h, ih s' (b.drop n) (by simp; omega)]

def drainAll (k : Taker σ α β ε) (s : σ) (b : List α) : List β × Except ε (σ × List α) :=
  k.drain (b.length + 1) s b

theorem drainAll_of_lt (h : b.length < fuel) : k.drain fuel s b = k.drainAll s b := by
  rw [show fuel = b.length + 1 + (fuel - (b.length + 1)) by omega, drain_fuel _ _ _ _ (by omega),
    drainAll]

theorem drainAll_none (h : k.take s b = none) : k.drainAll s b = ([], .ok (s, b)) :=
  drain_none h _

theorem drainAll_error (h : k.take s b = some (out, .error e)) :
    k.drainAll s b = (out, .error e) :=
  drain_error h (by omega)

theorem drainAll_ok (h : k.take s b = some (out, .ok (s', n))) :
    k.drainAll s b =
      (out ++ (k.drainAll s' (b.drop n)).1, (k.drainAll s' (b.drop n)).2) := by
  have hn := k.advances s b out s' n h
  rw [drainAll, drain_ok h, drainAll_of_lt (by simp; omega)]

/-- What is taken from a stream is what is taken from its first part, and then from what that
leaves and the rest. -/
theorem drainAll_append (s : σ) (b rest : List α) :
    k.drainAll s (b ++ rest) =
      match k.drainAll s b with
      | (outs, .error e) => (outs, .error e)
      | (outs, .ok (s', left)) =>
        (outs ++ (k.drainAll s' (left ++ rest)).1, (k.drainAll s' (left ++ rest)).2) := by
  induction hlen : b.length using Nat.strongRecOn generalizing s b with
  | _ len ih =>
    rcases h : k.take s b with _ | ⟨out, e | ⟨s', n⟩⟩
    · simp [drainAll_none h]
    · rw [drainAll_error h, drainAll_error (k.stable s b _ h rest)]
    · obtain ⟨hpos, hle⟩ := k.advances s b out s' n h
      have hdrop : (b ++ rest).drop n = b.drop n ++ rest := List.drop_append_of_le_length hle
      rw [drainAll_ok h, drainAll_ok (k.stable s b _ h rest), hdrop,
        ih (b.drop n).length (by simp; omega) s' (b.drop n) rfl]
      rcases k.drainAll s' (b.drop n) with ⟨outs, e | ⟨s'', left⟩⟩
      · rfl
      · simp

/-- The states and the streams at which the next piece is taken. -/
inductive Starts (k : Taker σ α β ε) : σ → List α → σ → List α → Prop where
  | here (s : σ) (b : List α) : Starts k s b s b
  | next {s s' t : σ} {b c : List α} {out : List β} {n : Nat}
      (taken : k.take s b = some (out, .ok (s', n))) (rest : Starts k s' (b.drop n) t c) :
      Starts k s b t c

theorem Starts.trans {s t u : σ} {b c d : List α} (h : Starts k s b t c) (h' : Starts k t c u d) :
    Starts k s b u d := by
  induction h with
  | here s b => exact h'
  | next taken _ ih => exact .next taken (ih h')

/-- What is left when all has been taken is where the next piece starts, whatever follows. -/
theorem starts_of_drainAll {left : List α} (h : k.drainAll s b = (outs, .ok (s', left)))
    (rest : List α) : Starts k s (b ++ rest) s' (left ++ rest) := by
  induction hlen : b.length using Nat.strongRecOn generalizing s b outs with
  | _ len ih =>
    rcases ht : k.take s b with _ | ⟨out, e | ⟨t, n⟩⟩
    · rw [drainAll_none ht] at h
      obtain ⟨-, h⟩ := Prod.mk.inj h
      obtain ⟨rfl, rfl⟩ := Prod.mk.inj (Except.ok.inj h)
      exact .here s (b ++ rest)
    · rw [drainAll_error ht] at h
      simp at h
    · obtain ⟨hpos, hle⟩ := k.advances s b out t n ht
      rw [drainAll_ok ht] at h
      obtain ⟨-, h⟩ := Prod.mk.inj h
      have hrest := ih (b.drop n).length (by simp; omega) (Prod.ext rfl h) rfl
      refine .next (k.stable s b _ ht rest) ?_
      rwa [List.drop_append_of_le_length hle]

/-- Nothing more can be taken from what is left. -/
theorem take_left_of_drainAll {left : List α} (h : k.drainAll s b = (outs, .ok (s', left))) :
    k.take s' left = none := by
  induction hlen : b.length using Nat.strongRecOn generalizing s b outs with
  | _ len ih =>
    rcases ht : k.take s b with _ | ⟨out, e | ⟨t, n⟩⟩
    · rw [drainAll_none ht] at h
      obtain ⟨-, h⟩ := Prod.mk.inj h
      obtain ⟨rfl, rfl⟩ := Prod.mk.inj (Except.ok.inj h)
      exact ht
    · rw [drainAll_error ht] at h
      simp at h
    · obtain ⟨hpos, hle⟩ := k.advances s b out t n ht
      rw [drainAll_ok ht] at h
      obtain ⟨-, h⟩ := Prod.mk.inj h
      exact ih (b.drop n).length (by simp; omega) (Prod.ext rfl h) rfl

/-- What a stream fails with is what one of its pieces fails with. -/
theorem exists_take_of_drainAll_error (h : k.drainAll s b = (outs, .error e)) :
    ∃ t c out, k.take t c = some (out, .error e) := by
  induction hlen : b.length using Nat.strongRecOn generalizing s b outs with
  | _ len ih =>
    rcases ht : k.take s b with _ | ⟨out, e' | ⟨t, n⟩⟩
    · rw [drainAll_none ht] at h
      simp at h
    · rw [drainAll_error ht] at h
      obtain rfl := Except.error.inj (Prod.mk.inj h).2
      exact ⟨s, b, out, ht⟩
    · obtain ⟨hpos, hle⟩ := k.advances s b out t n ht
      rw [drainAll_ok ht] at h
      obtain ⟨-, h⟩ := Prod.mk.inj h
      exact ih (b.drop n).length (by simp; omega) (Prod.ext rfl h) rfl

end Taker

end Incremental
