import Mathlib.Data.List.Basic
import Mathlib.Tactic.IntervalCases

namespace Radix

/-- Why a text is not a number. -/
inductive IntErrorKind where
  | empty
  | invalidDigit
  | posOverflow
  deriving DecidableEq

/-- The value of a digit, below a radix of at most 36. -/
def toDigit (radix : Nat) (c : Char) : Option Nat :=
  let value :=
    if '0' ≤ c ∧ c ≤ '9' then c.toNat - '0'.toNat
    else if 'a' ≤ c ∧ c ≤ 'z' then c.toNat - 'a'.toNat + 10
    else if 'A' ≤ c ∧ c ≤ 'Z' then c.toNat - 'A'.toNat + 10
    else radix
  if value < radix then some value else none

def parseDigits (radix bound : Nat) : Nat → List Char → Except IntErrorKind Nat
  | result, [] => .ok result
  | result, c :: digits =>
    match toDigit radix c with
    | none => .error .invalidDigit
    | some x =>
      if result * radix + x < bound then parseDigits radix bound (result * radix + x) digits
      else .error .posOverflow

/-- An unsigned number below a bound, with or without a sign. -/
def parse (radix bound : Nat) (text : List Char) : Except IntErrorKind Nat :=
  match text with
  | [] => .error .empty
  | ['+'] => .error .invalidDigit
  | '+' :: digits => parseDigits radix bound 0 digits
  | digits => parseDigits radix bound 0 digits

theorem parseDigits_append {radix bound result value : Nat} {a : List Char} (b : List Char)
    (ha : parseDigits radix bound result a = .ok value) :
    parseDigits radix bound result (a ++ b) = parseDigits radix bound value b := by
  induction a generalizing result with
  | nil =>
    cases ha
    rfl
  | cons c a ih =>
    rw [parseDigits] at ha
    rw [List.cons_append, parseDigits]
    split at ha
    next => cases ha
    next x hx =>
      split at ha
      next hlt =>
        rw [if_pos hlt]
        exact ih ha
      next => cases ha

theorem parseDigits_lt {radix bound result value : Nat} {digits : List Char} (hresult : result < bound)
    (h : parseDigits radix bound result digits = .ok value) : value < bound := by
  induction digits generalizing result with
  | nil =>
    cases h
    exact hresult
  | cons c digits ih =>
    rw [parseDigits] at h
    split at h
    next => cases h
    next x hx =>
      split at h
      next hlt => exact ih hlt h
      next => cases h

theorem parse_lt {radix bound value : Nat} {text : List Char} (hbound : 0 < bound)
    (h : parse radix bound text = .ok value) : value < bound := by
  unfold parse at h
  split at h
  next => cases h
  next => cases h
  next => exact parseDigits_lt hbound h
  next => exact parseDigits_lt hbound h

theorem toDigit_digitChar {radix d : Nat} (hradix : radix ≤ 16) (hd : d < radix) :
    toDigit radix (Nat.digitChar d) = some d := by
  have hd16 : d < 16 := by omega
  have hvalue : (if '0' ≤ Nat.digitChar d ∧ Nat.digitChar d ≤ '9' then
        (Nat.digitChar d).toNat - '0'.toNat
      else if 'a' ≤ Nat.digitChar d ∧ Nat.digitChar d ≤ 'z' then
        (Nat.digitChar d).toNat - 'a'.toNat + 10
      else if 'A' ≤ Nat.digitChar d ∧ Nat.digitChar d ≤ 'Z' then
        (Nat.digitChar d).toNat - 'A'.toNat + 10
      else radix) = d := by
    interval_cases d <;> rfl
  unfold toDigit
  simp only [hvalue, if_pos hd]

theorem parseDigits_toDigits {radix bound n : Nat} (hradix : 1 < radix) (hradix' : radix ≤ 16)
    (h : n < bound) : parseDigits radix bound 0 (Nat.toDigits radix n) = .ok n := by
  induction n using Nat.strong_induction_on with
  | _ n ih =>
  rw [Nat.toDigits_eq_if hradix]
  split
  next hlt =>
    rw [parseDigits, toDigit_digitChar hradix' hlt]
    simp [h, parseDigits]
  next hge =>
    have hdiv : n / radix < n := Nat.div_lt_self (by omega) hradix
    have hmod := Nat.mod_lt n (show 0 < radix by omega)
    rw [parseDigits_append _ (ih _ hdiv (by omega)), parseDigits, toDigit_digitChar hradix' hmod]
    simp [Nat.div_add_mod', h, parseDigits]

theorem isAlphanum_of_mem_toDigits {radix n : Nat} (hradix : 1 < radix) (hradix' : radix ≤ 16) :
    ∀ c ∈ Nat.toDigits radix n, c.isAlphanum = true := by
  induction n using Nat.strong_induction_on with
  | _ n ih =>
  have hdigit : ∀ d < radix, (Nat.digitChar d).isAlphanum = true := by
    intro d hd
    have hd16 : d < 16 := by omega
    clear hd
    interval_cases d <;> decide
  rw [Nat.toDigits_eq_if hradix]
  split
  next hlt => simpa using hdigit n hlt
  next hge =>
    have hdiv : n / radix < n := Nat.div_lt_self (by omega) hradix
    rw [List.forall_mem_append]
    exact ⟨ih _ hdiv, by simpa using hdigit _ (Nat.mod_lt n (by omega))⟩

/-- A number that was written can be read. -/
theorem parse_toDigits {radix bound n : Nat} (hradix : 1 < radix) (hradix' : radix ≤ 16)
    (h : n < bound) : parse radix bound (Nat.toDigits radix n) = .ok n := by
  have hdigits := parseDigits_toDigits hradix hradix' h
  have halpha := isAlphanum_of_mem_toDigits (n := n) hradix hradix'
  have hne : Nat.toDigits radix n ≠ [] := Nat.toDigits_ne_nil
  unfold parse
  split
  next heq => exact absurd heq hne
  next heq =>
    rw [heq] at halpha
    exact Bool.noConfusion (halpha '+' (by simp))
  next digits heq =>
    rw [heq] at halpha
    exact Bool.noConfusion (halpha '+' (by simp))
  next => exact hdigits

theorem toDigit_lt {radix x : Nat} {c : Char} (h : toDigit radix c = some x) : x < radix := by
  simp only [toDigit, Option.ite_none_right_eq_some, Option.some.injEq] at h
  obtain ⟨hlt, rfl⟩ := h
  exact hlt

theorem parseDigits_bounds {radix bound result value : Nat} {digits : List Char}
    (h : parseDigits radix bound result digits = .ok value) :
    result * radix ^ digits.length ≤ value ∧ value < (result + 1) * radix ^ digits.length := by
  induction digits generalizing result with
  | nil =>
    cases h
    simp
  | cons c digits ih =>
    rw [parseDigits] at h
    split at h
    next => cases h
    next x hx =>
      split at h
      next =>
        have hlt := toDigit_lt hx
        obtain ⟨hle, hlt'⟩ := ih h
        rw [List.length_cons, Nat.pow_succ']
        refine ⟨?_, lt_of_lt_of_le hlt' ?_⟩
        · calc result * (radix * radix ^ digits.length)
              = result * radix * radix ^ digits.length := (Nat.mul_assoc _ _ _).symm
            _ ≤ (result * radix + x) * radix ^ digits.length := Nat.mul_le_mul_right _ (by omega)
            _ ≤ value := hle
        · calc (result * radix + x + 1) * radix ^ digits.length
              ≤ (result * radix + radix) * radix ^ digits.length := Nat.mul_le_mul_right _ (by omega)
            _ = (result + 1) * (radix * radix ^ digits.length) := by
              rw [← Nat.succ_mul, Nat.mul_assoc]
      next => cases h

theorem toNat_of_toDigit {c : Char} {x : Nat} (h : toDigit 10 c = some x) : c.toNat = 48 + x := by
  simp only [toDigit, Option.ite_none_right_eq_some, Option.some.injEq] at h
  obtain ⟨hlt, rfl⟩ := h
  have h0 : '0'.toNat = 48 := rfl
  by_cases hdigit : '0' ≤ c ∧ c ≤ '9'
  · have hle : '0'.toNat ≤ c.toNat := hdigit.1
    rw [if_pos hdigit]
    omega
  · rw [if_neg hdigit] at hlt
    split at hlt
    next => omega
    next =>
      split at hlt <;> omega

/-- Of equally many decimal digits the value determines each. -/
theorem parseDigits_inj {bound result value : Nat} {a b : List Char} (hlen : a.length = b.length)
    (ha : parseDigits 10 bound result a = .ok value) (hb : parseDigits 10 bound result b = .ok value) :
    a = b := by
  induction a generalizing b result with
  | nil => exact (List.length_eq_zero_iff.mp hlen.symm).symm
  | cons c a ih =>
    cases b with
    | nil => cases hlen
    | cons d b =>
      have hlen : a.length = b.length := Nat.succ_injective hlen
      rw [parseDigits] at ha hb
      split at ha
      next => cases ha
      next x hx =>
        split at hb
        next => cases hb
        next y hy =>
          split at ha
          next =>
            split at hb
            next =>
              obtain ⟨hax, hax'⟩ := parseDigits_bounds ha
              obtain ⟨hby, hby'⟩ := parseDigits_bounds hb
              rw [hlen] at hax hax'
              have hpos : 0 < 10 ^ b.length := by positivity
              have hxy : result * 10 + x < result * 10 + y + 1 :=
                Nat.lt_of_mul_lt_mul_right (lt_of_le_of_lt hax hby')
              have hyx : result * 10 + y < result * 10 + x + 1 :=
                Nat.lt_of_mul_lt_mul_right (lt_of_le_of_lt hby hax')
              obtain rfl : x = y := by omega
              have hcd : c = d := Char.toNat_inj.mp
                ((toNat_of_toDigit hx).trans (toNat_of_toDigit hy).symm)
              rw [hcd, ih hlen ha hb]
            next => cases hb
          next => cases ha

end Radix
