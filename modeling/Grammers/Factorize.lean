import Grammers.Checked
import Mathlib.Data.Nat.Sqrt

namespace Grammers

open Checked

namespace Factorize

/-- Without a result, because the work is used up. -/
abbrev Stop : Type := Fault Unit

/-- A product that must fit its type. -/
def mul {ε : Type} (width a b : Nat) : Except (Fault ε) Nat :=
  if a * b < 2 ^ width then .ok (a * b) else .error .panic

def add {ε : Type} (width a b : Nat) : Except (Fault ε) Nat :=
  if a + b < 2 ^ width then .ok (a + b) else .error .panic

def div {ε : Type} (a b : Nat) : Except (Fault ε) Nat :=
  if b = 0 then .error .panic else .ok (a / b)

def rem {ε : Type} (a b : Nat) : Except (Fault ε) Nat :=
  if b = 0 then .error .panic else .ok (a % b)

def gcd (a b : Nat) : Nat :=
  if b = 0 then a else gcd b (a % b)
termination_by b
decreasing_by exact Nat.mod_lt _ (Nat.pos_of_ne_zero ‹_›)

def modpowLoop {ε : Type} (m result n e : Nat) : Except (Fault ε) Nat :=
  if e = 0 then .ok result
  else do
    let result ←
      if e % 2 = 1 then do
        let product ← mul 128 result n
        rem product m
      else .ok result
    let square ← mul 128 n n
    let n ← rem square m
    modpowLoop m result n (e / 2)
termination_by e

def modpow {ε : Type} (n e m : Nat) : Except (Fault ε) Nat :=
  if m = 1 then .ok 0
  else do
    let n ← rem n m
    modpowLoop m 1 n e

def trailingZeros (n : Nat) : Nat :=
  if n = 0 then 64
  else if n % 2 = 1 then 0
  else trailingZeros (n / 2) + 1

def bases : List Nat := [2, 325, 9375, 28178, 450775, 9780504, 1795265022]

/-- Whether the squares of a number stay clear of minus one. -/
def witness {ε : Type} (n : Nat) : Nat → Nat → Except (Fault ε) Bool
  | 0, _ => .ok true
  | k + 1, x => do
    let square ← mul 128 x x
    let x ← rem square n
    if x = n - 1 then .ok false else witness n k x

def testBases {ε : Type} (n s d : Nat) : List Nat → Except (Fault ε) Bool
  | [] => .ok true
  | a :: rest => do
    let residue ← rem a n
    if residue = 0 then testBases n s d rest
    else
      let x ← modpow a d n
      if x = 1 ∨ x = n - 1 then testBases n s d rest
      else
        let composite ← witness n (s - 1) x
        if composite then .ok false else testBases n s d rest

def isPrime {ε : Type} (n : Nat) : Except (Fault ε) Bool :=
  if n < 2 ∨ n % 2 = 0 then .ok (n = 2)
  else
    let s := trailingZeros (n - 1)
    let d := (n - 1) / 2 ^ s
    testBases n s d bases

def workLimit : Nat := 1250000

/-- The work that is left, and the steps that were made. -/
structure Budget where
  work : Nat
  steps : Nat

abbrev Search (α : Type) : Type := EStateM Stop Budget α

def lift {α : Type} (x : Except Stop α) : Search α := fun s =>
  match x with
  | .ok v => .ok v s
  | .error e => .error e s

/-- Take one unit of work, if there is any. -/
def spend : Search Unit := fun s =>
  match s.work with
  | 0 => .error (.error ()) s
  | work + 1 => .ok () ⟨work, s.steps + 1⟩

def absSub (a b : Nat) : Nat := max a b - min a b

/-- The next number of the sequence. -/
def next (pq c y : Nat) : Search Nat := do
  spend
  lift do
    let square ← modpow y 2 pq
    let sum ← add 128 square c
    rem sum pq

def advance (pq c : Nat) : Nat → Nat → Search Nat
  | 0, y => pure y
  | n + 1, y => do
    let y ← next pq c y
    advance pq c n y

/-- Multiply up a number of differences. -/
def batch (pq c x : Nat) : Nat → Nat → Nat → Search (Nat × Nat)
  | 0, y, q => pure (y, q)
  | n + 1, y, q => do
    let y ← next pq c y
    let q ← lift do
      let product ← mul 128 q (absSub x y)
      rem product pq
    batch pq c x n y q

/-- Where a round of batches ends: the sequence, the product, their common divisor and where the last
batch began. -/
structure Round where
  y : Nat
  q : Nat
  g : Nat
  ys : Nat

def batches (pq c x r k : Nat) (s : Round) : Search Round :=
  if k < r ∧ s.g = 1 then do
    let (y, q) ← batch pq c x (min 128 (r - k)) s.y s.q
    batches pq c x r (k + 128) ⟨y, q, gcd q pq, s.y⟩
  else pure s
termination_by r - k

/-- Rounds of twice the length each. The first number bounds how many there can be, since each takes
some of the work. -/
def rounds (pq c : Nat) : Nat → Nat → Round → Search (Nat × Round)
  | 0, _, _ => throw .panic
  | more + 1, r, s => do
    let x := s.y
    let y ← advance pq c r x
    let s ← batches pq c x r 0 { s with y := y }
    let r ← lift (mul 128 r 2)
    if s.g = 1 then rounds pq c more r s else pure (x, s)

/-- Go through the last batch again, a step at a time. -/
def replay (pq c x : Nat) : Nat → Nat → Search Nat
  | 0, _ => throw .panic
  | more + 1, ys => do
    let ys ← next pq c ys
    let g := gcd (absSub x ys) pq
    if 1 < g then pure g else replay pq c x more ys

def factorizeWithParam (pq c : Nat) : Search (Nat × Nat) :=
  if pq % 2 = 0 then pure (2, pq / 2)
  else do
    let budget ← get
    let (x, s) ← rounds pq c (budget.work + 1) 1 ⟨3 * (pq / 7), 1, 1, 0⟩
    let budget ← get
    let g ← if s.g = pq then replay pq c x (budget.work + 1) s.ys else pure s.g
    let other ← lift (div pq g)
    let p := g % 2 ^ 64
    let q := other % 2 ^ 64
    pure (min p q, max p q)

def smallPrimes : List Nat :=
  [2, 3, 5, 7, 11, 13, 17, 19, 23, 29, 31, 37, 41, 43, 47, 53, 59, 61, 67, 71, 73, 79, 83, 89, 97]

/-- Two factors, if the test takes them for prime. -/
def thenSome (prime : Bool) (p q : Nat) : Option (Nat × Nat) := if prime then some (p, q) else none

/-- What the first small divisor says, if there is one. -/
def trySmall {ε : Type} (pq : Nat) : List Nat → Except (Fault ε) (Option (Option (Nat × Nat)))
  | [] => .ok none
  | p :: rest =>
    if p * p ≤ pq ∧ pq % p = 0 then do
      let q := pq / p
      let prime ← isPrime q
      .ok (some (thenSome prime p q))
    else trySmall pq rest

def attempts : List Nat := [43, 47, 53, 59, 61]

/-- The attempts share what is left of the work. -/
def tryAttempts (pq : Nat) : List Nat → Budget → Except (Fault Unit) (Option (Nat × Nat) × Budget)
  | [], s => .ok (none, s)
  | attempt :: rest, s => do
    let product ← mul 64 attempt (pq / 103)
    let c := max product 1
    match factorizeWithParam pq c s with
    | .error .panic _ => .error .panic
    | .error (.error ()) s => tryAttempts pq rest s
    | .ok (p, q) s =>
      if 1 < p ∧ 1 < q ∧ p * q = pq then do
        let prime ← isPrime p
        let prime ← if prime then isPrime q else .ok false
        .ok (thenSome prime p q, s)
      else tryAttempts pq rest s

/-- The factors, if they are found, and how much was spent on them. -/
def tryFactorize (pq : Nat) : Except (Fault Unit) (Option (Nat × Nat) × Budget) := do
  let budget : Budget := ⟨workLimit, 0⟩
  match ← trySmall pq smallPrimes with
  | some result => .ok (result, budget)
  | none =>
    let prime ← if pq < 4 then .ok true else isPrime pq
    if prime then .ok (none, budget)
    else
      let root := Nat.sqrt pq
      let square ← mul 64 root root
      if square = pq then do
        let prime ← isPrime root
        .ok (thenSome prime root root, budget)
      else tryAttempts pq attempts budget

end Factorize

end Grammers
