import Mathlib.Data.Nat.Log
import Mathlib.Data.Set.Function
import Grammers.LabelledPath
import Grammers.MemoryStorage

namespace Grammers

namespace StoredPeers

/-- The table of what was last written, with hashes in the place of infos. -/
structure Slots where
  slots : List UInt64
  evictions : Nat
  forgetAt : Option Nat
  deriving DecidableEq

def minSlots : Nat := 256

def maxSlots : Nat := 65536

def lifetime : Nat := 600

variable (hash : PeerInfo → UInt64)

/-- Zero marks an empty slot. -/
def fingerprint (peer : PeerInfo) : UInt64 := hash peer ||| 1

def index (peer : PeerInfo) (len : Nat) : Nat :=
  (UInt64.ofInt peer.id.dialogId * 0x9e3779b97f4a7c15).toNat >>> (64 - Nat.log2 len)

namespace Slots

def empty : Slots := ⟨[], 0, none⟩

def forgetIfOld (t : Slots) (now : Nat) : Slots :=
  if t.forgetAt.any (· ≤ now) then { t with slots := t.slots.map fun _ => 0, forgetAt := none } else t

def contains (t : Slots) (peer : PeerInfo) : Bool :=
  !t.slots.isEmpty && t.slots[index peer t.slots.length]? = some (fingerprint hash peer)

/-- Nothing is allocated before the first write. -/
def allocated (t : Slots) : List UInt64 :=
  if t.slots.isEmpty then List.replicate minSlots 0 else t.slots

/-- Whether another peer is in the slot. -/
def evicts (t : Slots) (peer : PeerInfo) : Bool :=
  let slot := t.allocated[index peer t.allocated.length]?
  slot ≠ some 0 && slot ≠ some (fingerprint hash peer)

def remember (t : Slots) (now : Nat) (peer : PeerInfo) : Slots :=
  let forgetAt := some (t.forgetAt.getD (now + lifetime))
  let evictions := t.evictions + (t.evicts hash peer).toNat
  let slots := t.allocated.set (index peer t.allocated.length) (fingerprint hash peer)
  if slots.length ≤ evictions && slots.length < maxSlots then
    ⟨List.replicate (slots.length * 2) 0, 0, forgetAt⟩
  else ⟨slots, evictions, forgetAt⟩

end Slots

/-- What a session has stored of each peer. -/
abbrev Stored : Type := PeerId → Option PeerInfo

/-- A session merges what is written with what it has. -/
def merge (stored : Stored) (peer : PeerInfo) : Stored := fun id =>
  if id = peer.id then some (((stored id).getD peer).extendInfo peer) else stored id

/-- A call that caches the peers of a reply: it reads the table for one peer after the other, writes
what has changed, and then remembers each of those. -/
inductive Task where
  | checking (todo changed : List PeerInfo)
  | writing (changed : List PeerInfo)
  | remembering (todo : List PeerInfo)
  deriving DecidableEq

structure State where
  slots : Slots
  stored : Stored
  tasks : List Task

inductive Action where
  | call (now : Nat) (peers : List PeerInfo)
  | check (task : Nat)
  | write (task : Nat) (ok : Bool)
  | remember (task now : Nat)
  | getMe (info : PeerInfo) (ok : Bool)
  deriving DecidableEq

def init (stored : Stored) : State := ⟨.empty, stored, []⟩

def step (s : State) : Action → Option State
  | .call now peers =>
    some { s with slots := s.slots.forgetIfOld now, tasks := s.tasks ++ [.checking peers []] }
  | .check task =>
    match s.tasks[task]? with
    | some (.checking (peer :: todo) changed) =>
      let changed := if s.slots.contains hash peer then changed else changed ++ [peer]
      some { s with tasks := s.tasks.set task (.checking todo changed) }
    | some (.checking [] changed) =>
      let next := if changed.isEmpty then .remembering [] else .writing changed
      some { s with tasks := s.tasks.set task next }
    | _ => none
  | .write task ok =>
    match s.tasks[task]? with
    | some (.writing changed) =>
      if ok then
        some { s with
          stored := changed.foldl merge s.stored, tasks := s.tasks.set task (.remembering changed) }
      else some { s with tasks := s.tasks.set task (.remembering []) }
    | _ => none
  | .remember task now =>
    match s.tasks[task]? with
    | some (.remembering (peer :: todo)) =>
      some { s with
        slots := s.slots.remember hash now peer, tasks := s.tasks.set task (.remembering todo) }
    | _ => none
  | .getMe info ok => some (if ok then { s with stored := merge s.stored info } else s)

end StoredPeers

end Grammers
