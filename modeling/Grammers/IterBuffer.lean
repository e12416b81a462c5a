import Mathlib.Data.List.Basic

namespace Grammers

/-- What the iterators over replies of the server have in common. -/
structure IterBuffer (R T : Type) where
  limit : Option Nat
  fetched : Nat
  buffer : List T
  lastChunk : Bool
  total : Option Nat
  request : R

namespace IterBuffer

variable {R T : Type}

def fromRequest (request : R) : IterBuffer R T := ⟨none, 0, [], false, none, request⟩

def limitReached (iter : IterBuffer R T) : Bool := iter.limit.any (· ≤ iter.fetched)

def popItem (iter : IterBuffer R T) : Option T × IterBuffer R T :=
  match iter.buffer with
  | [] => (none, iter)
  | item :: buffer => (some item, { iter with buffer := buffer, fetched := iter.fetched + 1 })

/-- What is returned without asking the server, unless more data needs to be fetched. -/
def nextRaw (iter : IterBuffer R T) : Option (Option T × IterBuffer R T) :=
  if iter.limitReached || iter.buffer.isEmpty && iter.lastChunk then some (none, iter)
  else if iter.buffer.isEmpty then none
  else some iter.popItem

/-- How much is asked for; nothing would make the server send a default amount. -/
def determineLimit (iter : IterBuffer R T) (max : Nat) : Nat :=
  match iter.limit with
  | none => max
  | some limit => if iter.fetched < limit then Nat.min (limit - iter.fetched) max else 1

end IterBuffer

end Grammers
