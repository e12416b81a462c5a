import Mathlib.Data.List.Basic
import Grammers.LittleEndian

namespace Checked

variable {α β ε : Type}

/-- How a call ends without a value: with an error it reports, or with a panic. -/
inductive Fault (ε : Type) where
  | error (e : ε)
  | panic
  deriving DecidableEq

/-- A range of a slice, which panics where it is out of range. -/
def slice (b : List α) (lo hi : Nat) : Except (Fault ε) (List α) :=
  if lo ≤ hi ∧ hi ≤ b.length then .ok ((b.drop lo).take (hi - lo)) else .error .panic

def index (b : List α) (i : Nat) : Except (Fault ε) α :=
  match b[i]? with
  | some x => .ok x
  | none => .error .panic

def sub (a b : Nat) : Except (Fault ε) Nat :=
  if b ≤ a then .ok (a - b) else .error .panic

/-- A range of bytes as the number they encode, for a range as long as the number. -/
def word (width : Nat) (b : List UInt8) (lo hi : Nat) : Except (Fault ε) Nat := do
  let bs ← slice b lo hi
  if bs.length = width then .ok (LittleEndian.ofBytes bs) else .error .panic

/-- A value that may be missing, with the error that then is reported. -/
def require (value : Option α) (e : ε) : Except (Fault ε) α :=
  match value with
  | some a => .ok a
  | none => .error (.error e)

theorem bind_eq_ok {γ : Type} {x : Except γ α} {f : α → Except γ β} {v : β}
    (h : x >>= f = .ok v) : ∃ a, x = .ok a ∧ f a = .ok v := by
  cases x with
  | error => cases h
  | ok a => exact ⟨a, rfl, h⟩

theorem map_eq_ok {γ : Type} {x : Except γ α} {f : α → β} {v : β} (h : x.map f = .ok v) :
    ∃ a, x = .ok a ∧ f a = v := by
  cases x with
  | error => cases h
  | ok a => exact ⟨a, rfl, Except.ok.inj h⟩

theorem slice_ok {b : List α} {lo hi : Nat} (hlo : lo ≤ hi) (hhi : hi ≤ b.length) :
    slice (ε := ε) b lo hi = .ok ((b.drop lo).take (hi - lo)) := by
  simp [slice, hlo, hhi]

theorem index_ok {b : List α} {i : Nat} (h : i < b.length) :
    index (ε := ε) b i = .ok b[i] := by
  simp [index, h]

theorem sub_ok {a b : Nat} (h : b ≤ a) : sub (ε := ε) a b = .ok (a - b) := by
  simp [sub, h]

theorem word_ok {width : Nat} {b : List UInt8} {lo hi : Nat} (hwidth : hi = lo + width)
    (hhi : hi ≤ b.length) :
    word (ε := ε) width b lo hi = .ok (LittleEndian.ofBytes ((b.drop lo).take width)) := by
  subst hwidth
  have hlen : ((b.drop lo).take width).length = width := by simp; omega
  simp only [word, slice_ok (Nat.le_add_right lo width) hhi, Nat.add_sub_cancel_left]
  simp [bind, Except.bind, hlen]

theorem take_drop_append {b rest : List α} {lo n : Nat} (h : lo + n ≤ b.length) :
    ((b ++ rest).drop lo).take n = (b.drop lo).take n := by
  rw [List.drop_append_of_le_length (by omega), List.take_append_of_le_length (by simp; omega)]

/-- A call that does not panic, and whose value, if it has one, is as promised. -/
def Safe (x : Except (Fault ε) α) (P : α → Prop) : Prop :=
  match x with
  | .ok a => P a
  | .error (.error _) => True
  | .error .panic => False

/-- How a call ends that does not panic. -/
def reported : (x : Except (Fault ε) α) → x ≠ .error .panic → Except ε α
  | .ok a, _ => .ok a
  | .error (.error e), _ => .error e
  | .error .panic, h => absurd rfl h

namespace Safe

variable {P Q : α → Prop} {x y : Except (Fault ε) α}

theorem ok {a : α} (h : P a) : Safe (.ok a : Except (Fault ε) α) P := h

theorem error (e : ε) : Safe (.error (.error e) : Except (Fault ε) α) P := trivial

theorem bind {R : β → Prop} {f : α → Except (Fault ε) β} (h : Safe x P)
    (h' : ∀ a, P a → Safe (f a) R) : Safe (x >>= f) R := by
  match x with
  | .ok a => exact h' a h
  | .error (.error e) => trivial
  | .error .panic => exact h.elim

theorem ite {p : Prop} [Decidable p] (h : p → Safe x P) (h' : ¬p → Safe y P) :
    Safe (if p then x else y) P := by
  split
  next hp => exact h hp
  next hp => exact h' hp

theorem ne_panic (h : Safe x P) : x ≠ .error .panic := by
  rintro rfl
  exact h

theorem slice {b : List α} {lo hi : Nat} (hlo : lo ≤ hi) (hhi : hi ≤ b.length) :
    Safe (Checked.slice b lo hi : Except (Fault ε) (List α)) fun r => r.length = hi - lo := by
  rw [slice_ok hlo hhi]
  exact ok (by simp; omega)

theorem index {b : List α} {i : Nat} (h : i < b.length) :
    Safe (Checked.index b i : Except (Fault ε) α) fun _ => True := by
  rw [index_ok h]
  exact ok trivial

theorem require (value : Option α) (e : ε) : Safe (Checked.require value e) fun a => value = some a := by
  cases value with
  | none => exact error e
  | some a => exact ok rfl

theorem sub {a b : Nat} (h : b ≤ a) :
    Safe (Checked.sub a b : Except (Fault ε) Nat) fun r => r = a - b := by
  rw [sub_ok h]
  exact ok rfl

end Safe

end Checked
