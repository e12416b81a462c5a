import Mathlib.Data.Nat.Log
import Grammers.Text
import Grammers.Utf16

namespace Grammers

namespace Parsers

inductive Edge where
  | after
  | before
  deriving DecidableEq

def Edge.cmp : Edge → Edge → Ordering
  | .after, .before => .lt
  | .before, .after => .gt
  | _, _ => .eq

/-- A place in a message, for one part of a marker of an entity. -/
structure Position where
  offset : Int
  edge : Edge
  index : Nat
  part : Nat
  deriving DecidableEq

def before (index part : Nat) (offset : Int) : Position := ⟨offset, .before, index, part⟩

def after (index part : Nat) (offset : Int) : Position := ⟨offset, .after, index, part⟩

def Position.cmp (a b : Position) : Ordering :=
  (((compare a.offset b.offset).then (a.edge.cmp b.edge)).then
    (match a.edge with
    | .before => compare a.index b.index
    | .after => compare b.index a.index)).then (compare a.part b.part)

/-- A segment to insert. -/
inductive Segment (Timestamp : Type) where
  | fixed (s : Text)
  | string (s : Text)
  | number (n : Int64)
  | timestamp (t : Timestamp)
  deriving DecidableEq

abbrev Insertion (Timestamp : Type) : Type := Position × Segment Timestamp

variable {Timestamp : Type}

/-- The decimal digits of a number, with its sign. -/
def decimal (n : Int) : Text :=
  if n < 0 then '-' :: Nat.toDigits 10 n.natAbs else Nat.toDigits 10 n.natAbs

namespace Segment

/-- The logarithm has no value, and the call panics, unless the absolute value is positive. -/
def len : Segment Timestamp → Option Nat
  | .fixed s => some (asBytes s).length
  | .string s => some (asBytes s).length
  | .number n =>
    if 0 < n.abs then some ((if n < 0 then 1 else 0) + (Nat.log 10 n.abs.toInt.toNat + 1)) else none
  | .timestamp _ => some 25

def display (show' : Timestamp → Text) : Segment Timestamp → Text
  | .fixed s => s
  | .string s => s
  | .number n => decimal n.toInt
  | .timestamp t => show' t

end Segment

/-- What is at the end of a vector that was sorted in reverse comes first here. -/
def popAt (show' : Timestamp → Text) (index : Nat) :
    List (Insertion Timestamp) → Text × List (Insertion Timestamp)
  | [] => ([], [])
  | (at', what) :: insertions =>
    if at'.offset = index then
      let (text, rest) := popAt show' index insertions
      (what.display show' ++ text, rest)
    else ([], (at', what) :: insertions)

/-- The units of the message from an index on, with the high surrogate that came before. -/
def walk (show' : Timestamp → Text) : List Nat → Nat → Option Nat → List (Insertion Timestamp) →
    Option Text
  | [], _, _, insertions => some (insertions.flatMap fun x => x.2.display show')
  | point :: points, index, prevPoint, insertions =>
    let popped := popAt show' index insertions
    match prevPoint with
    | some previous =>
      match Utf16.decodePair previous point with
      | none => none
      | some c =>
        (walk show' points (index + 1) none popped.2).map fun rest => popped.1 ++ c :: rest
    | none =>
      match Utf16.decodeUnit point with
      | some c =>
        (walk show' points (index + 1) none popped.2).map fun rest => popped.1 ++ c :: rest
      | none => (walk show' points (index + 1) (some point) popped.2).map fun rest => popped.1 ++ rest

/-- The message with the segments inserted, unless the length of a segment panics. -/
def injectIntoMessage (show' : Timestamp → Text) (message : Text)
    (insertions : List (Insertion Timestamp)) : Option Text :=
  match insertions.mapM fun x => x.2.len with
  | none => none
  | some _ =>
    let sorted := insertions.mergeSort fun a b => b.1.cmp a.1 ≠ .gt
    walk show' (Utf16.encode message) 0 none sorted.reverse

/-! What is written where. -/

/-- A character of the message, or a segment at its position. -/
inductive Piece (Timestamp : Type) where
  | text (c : Char)
  | segment (x : Insertion Timestamp)

def Piece.display (show' : Timestamp → Text) : Piece Timestamp → Text
  | .text c => [c]
  | .segment x => x.2.display show'

def Piece.text? : Piece Timestamp → Option Char
  | .text c => some c
  | .segment _ => none

/-- The order of what is inserted at one offset: edges that close come before edges that open, the
later entities close first and the earlier ones open first. -/
def Position.goesBefore (a b : Position) : Bool :=
  match a.edge, b.edge with
  | .after, .before => true
  | .before, .after => false
  | .after, .after => b.index < a.index || (a.index = b.index && a.part ≤ b.part)
  | .before, .before => a.index < b.index || (a.index = b.index && a.part ≤ b.part)

def segmentsAt (insertions : List (Insertion Timestamp)) (offset : Nat) :
    List (Insertion Timestamp) :=
  (insertions.filter fun x => x.1.offset = (offset : Int)).mergeSort fun a b => a.1.goesBefore b.1

/-- The pieces from an offset on. -/
def piecesFrom (insertions : List (Insertion Timestamp)) : Nat → Text → List (Piece Timestamp)
  | offset, [] => (segmentsAt insertions offset).map .segment
  | offset, c :: message =>
    ((List.range (Utf16.width c)).flatMap fun d => (segmentsAt insertions (offset + d)).map .segment) ++
      .text c :: piecesFrom insertions (offset + Utf16.width c) message

def reference (message : Text) (insertions : List (Insertion Timestamp)) : List (Piece Timestamp) :=
  piecesFrom insertions 0 message

end Parsers

end Grammers
