import Grammers.ByteSource
import Grammers.LabelledPath

namespace Grammers.Files

open ByteSource LabelledPath

def minChunkSize : Nat := 4 * 1024

def maxChunkSize : Nat := 512 * 1024

def maxInt32 : Nat := 2147483647

variable {ε : Type}

abbrev Stream (ε : Type) := Nat → Item UInt8 ε

/-- A stream that ends after some bytes. -/
def Stream.ofBytes (bytes : List UInt8) : Stream ε := fun i => (bytes[i]?).elim .eof .byte

inductive UploadError (ε : Type)
  | tooManyParts
  | unexpectedEof
  | stream (error : ε)
  deriving DecidableEq

/-- A stream that is uploaded, and the number of parts its declared size takes. -/
structure PartStream (ε : Type) where
  stream : Stream ε
  totalParts : Nat

structure PartStreamInner where
  position : Nat
  currentPart : Nat
  deriving DecidableEq

def PartStream.new (stream : Stream ε) (size : Nat) : Except (UploadError ε) (PartStream ε) :=
  let totalParts := (size + (maxChunkSize - 1)) / maxChunkSize
  if totalParts ≤ maxInt32 then .ok ⟨stream, totalParts⟩ else .error .tooManyParts

abbrev Worker := Nat

/-- How one call for the next part ends: with nothing left, a numbered part, or an error. -/
abbrev Outcome (ε : Type) := Except (UploadError ε) (Option (Nat × List UInt8))

/-- What the workers share: the stream's cursor and the part that is next, the call that
holds the lock with what it has read so far, and the calls that have returned. -/
structure Calls (ε : Type) where
  inner : PartStreamInner
  lock : Option (Worker × List UInt8)
  returned : List (Worker × Outcome ε)
  deriving DecidableEq

def Calls.new : Calls ε := ⟨⟨0, 0⟩, none, []⟩

/-- A call returns, and gives up the lock. -/
def Calls.unlock (c : Calls ε) (worker : Worker) (outcome : Outcome ε) : Calls ε :=
  { c with lock := none, returned := c.returned ++ [(worker, outcome)] }

/-- A call returns the part it has read. -/
def Calls.deliver (c : Calls ε) (worker : Worker) (bytes : List UInt8) : Calls ε :=
  Calls.unlock { c with inner := { c.inner with currentPart := c.inner.currentPart + 1 } } worker
    (.ok (some (c.inner.currentPart, bytes)))

/-- A call comes in: it waits while another one holds the lock. -/
def PartStream.nextPart (p : PartStream ε) (c : Calls ε) (worker : Worker) : Option (Calls ε) :=
  if c.lock.isSome then none
  else if p.totalParts ≤ c.inner.currentPart then some (c.unlock worker (.ok none))
  else some { c with lock := some (worker, []) }

/-- One read of the loop in a call, of which some number of bytes are ready. -/
def PartStream.read (p : PartStream ε) (c : Calls ε) (worker : Worker) (ready : Nat) :
    Option (Calls ε) :=
  match c.lock with
  | none => none
  | some (holder, buffer) =>
    if holder ≠ worker ∨ ready = 0 then none
    else
      match p.stream c.inner.position with
      | .failed error => some (c.unlock worker (.error (.stream error)))
      | .eof =>
        if c.inner.currentPart = p.totalParts - 1 then some (c.deliver worker buffer)
        else some (c.unlock worker (.error .unexpectedEof))
      | .byte _ =>
        let n := min ready (maxChunkSize - buffer.length)
        let bytes := grab p.stream c.inner.position n
        let c := { c with inner := { c.inner with position := c.inner.position + bytes.length } }
        let buffer := buffer ++ bytes
        if buffer.length = maxChunkSize then some (c.deliver worker buffer)
        else some { c with lock := some (worker, buffer) }

inductive Event
  | nextPart (worker : Worker)
  | read (worker : Worker) (ready : Nat)
  deriving DecidableEq

def PartStream.step (p : PartStream ε) (c : Calls ε) : Event → Option (Calls ε)
  | .nextPart worker => p.nextPart c worker
  | .read worker ready => p.read c worker ready

/-- The workers' calls in any order, each read returning what it may. -/
def PartStream.Steps (p : PartStream ε) (c : Calls ε) (event : Event) (c' : Calls ε) : Prop :=
  p.step c event = some c'

def PartStream.run (p : PartStream ε) (c : Calls ε) (events : List Event) : Option (Calls ε) :=
  events.foldlM p.step c

theorem PartStream.path_run {p : PartStream ε} {c c' : Calls ε} {events : List Event}
    (h : p.run c events = some c') : Path p.Steps c events c' := by
  induction events generalizing c with
  | nil =>
    obtain rfl := Option.some.inj h
    exact Path.nil
  | cons event events ih =>
    rw [PartStream.run, List.foldlM_cons] at h
    obtain ⟨c1, h1, h2⟩ := Option.bind_eq_some_iff.mp h
    exact Path.cons h1 (ih h2)

/-- The parts that were handed out, in order. -/
def Calls.handed (c : Calls ε) : List (Nat × List UInt8) :=
  c.returned.filterMap fun call =>
    match call.2 with
    | .ok part => part
    | .error _ => none

def Calls.failures (c : Calls ε) : List (UploadError ε) :=
  c.returned.filterMap fun call =>
    match call.2 with
    | .ok _ => none
    | .error error => some error

/-- Some worker was told that no part is left. -/
def Calls.Finished (c : Calls ε) : Prop := ∃ worker, (worker, .ok none) ∈ c.returned

end Grammers.Files
