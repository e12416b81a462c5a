import Mathlib.Data.List.AList

namespace Grammers.Messages

variable {μ : Type} {idOf : μ → Int}

/-- The updates of a reply to a sent request, as far as messages are found in them. -/
inductive Update (μ : Type)
  | messageId (randomId id : Int)
  | newMessage (message : μ)
  | newChannelMessage (message : μ)
  | newScheduledMessage (message : μ)
  | other
  deriving DecidableEq

/-- A map of pairs: of two with one key, the later one stays. -/
def collect {ν : Type} (pairs : List (Int × ν)) : AList fun _ : Int => ν :=
  pairs.foldl (fun map pair => map.insert pair.1 pair.2) ∅

def randomIdToId (updates : List (Update μ)) : AList fun _ : Int => Int :=
  collect (updates.filterMap fun update =>
    match update with
    | .messageId randomId id => some (randomId, id)
    | _ => none)

/-- The new messages of a reply by their identifiers. -/
def idToMessage (idOf : μ → Int) (updates : List (Update μ)) : AList fun _ : Int => μ :=
  collect ((updates.filterMap fun update =>
    match update with
    | .newMessage message => some message
    | .newChannelMessage message => some message
    | .newScheduledMessage message => some message
    | _ => none).map fun message => (idOf message, message))

/-- What one input takes from the messages: its own, or else the only one there is. -/
def takeMessage (messages : AList fun _ : Int => μ) (target : Option Int) :
    Option μ × AList fun _ : Int => μ :=
  match target.bind fun id => (messages.lookup id).map fun message => (id, message) with
  | some (id, message) => (some message, messages.erase id)
  | none =>
    match messages.entries with
    | [⟨_, message⟩] => (some message, ∅)
    | _ => (none, messages)

def mapInputs (randomToId : AList fun _ : Int => Int) :
    (AList fun _ : Int => μ) → List Int → List (Option μ)
  | _, [] => []
  | messages, randomId :: randomIds =>
    let (message, messages) := takeMessage messages (randomToId.lookup randomId)
    message :: mapInputs randomToId messages randomIds

/-- The messages the inputs became. A reply that is no list of updates maps nothing. -/
def mapRandomIdsToMessages (idOf : μ → Int) (randomIds : List Int)
    (parts : Option (List (Update μ))) : List (Option μ) :=
  match parts with
  | none => randomIds.map fun _ => none
  | some updates => mapInputs (randomIdToId updates) (idToMessage idOf updates) randomIds

/-- The messages are kept under their own identifiers. -/
def Keyed (idOf : μ → Int) (messages : AList fun _ : Int => μ) : Prop :=
  ∀ id message, messages.lookup id = some message → idOf message = id

theorem collect_keyed (messages : List μ) : Keyed idOf (collect (messages.map fun m => (idOf m, m))) := by
  have hall : ∀ (map : AList fun _ : Int => μ), Keyed idOf map →
      Keyed idOf ((messages.map fun m => (idOf m, m)).foldl
        (fun map pair => map.insert pair.1 pair.2) map) := by
    induction messages with
    | nil => exact fun map h => h
    | cons message messages ih =>
      intro map h
      refine ih _ fun id m hm => ?_
      by_cases he : id = idOf message
      · subst he
        rw [AList.lookup_insert] at hm
        exact congrArg idOf (Option.some.inj hm).symm
      · rw [AList.lookup_insert_ne he] at hm
        exact h id m hm
  exact hall ∅ fun id m hm => by simp at hm

theorem idToMessage_keyed (updates : List (Update μ)) : Keyed idOf (idToMessage idOf updates) :=
  collect_keyed _

theorem Keyed.erase {messages : AList fun _ : Int => μ} (h : Keyed idOf messages) (id : Int) :
    Keyed idOf (messages.erase id) := by
  intro id' m hm
  by_cases he : id' = id
  · subst he
    simp at hm
  · rw [AList.lookup_erase_ne he] at hm
    exact h id' m hm

/-- What is left when one input has taken its own message. -/
def leave (messages : AList fun _ : Int => μ) (target : Option Int) : AList fun _ : Int => μ :=
  match target with
  | some id => messages.erase id
  | none => messages

/-- What is left when each of some inputs has taken its own message. -/
def leftBy (randomToId : AList fun _ : Int => Int) (messages : AList fun _ : Int => μ)
    (randomIds : List Int) : AList fun _ : Int => μ :=
  randomIds.foldl (fun messages randomId => leave messages (randomToId.lookup randomId)) messages

variable {messages : AList fun _ : Int => μ} {randomToId : AList fun _ : Int => Int}
  {target : Option Int} {randomId id : Int} {randomIds before after : List Int} {message : μ}

theorem erase_of_not_mem (h : id ∉ messages) : messages.erase id = messages := by
  refine AList.ext ?_
  exact List.kerase_of_notMem_keys h

theorem lookup_leave (h : (leave messages target).lookup id = some message) :
    messages.lookup id = some message := by
  unfold leave at h
  split at h
  next id' =>
    by_cases he : id = id'
    · subst he
      simp at h
    · rwa [AList.lookup_erase_ne he] at h
  next => exact h

theorem lookup_leftBy (h : (leftBy randomToId messages randomIds).lookup id = some message) :
    messages.lookup id = some message := by
  induction randomIds generalizing messages with
  | nil => exact h
  | cons randomId randomIds ih => exact lookup_leave (ih h)

theorem lookup_of_single (h : messages.entries = [⟨id, message⟩]) (id' : Int) :
    messages.lookup id' = if id' = id then some message else none := by
  rw [AList.lookup, h]
  split
  next he => rw [he, List.dlookup_cons_eq]
  next he =>
    rw [List.dlookup_cons_ne _ _ he]
    rfl

/-- An input takes its own message, the single one left, or none. -/
inductive Taken (messages : AList fun _ : Int => μ) (target : Option Int) :
    Option μ → (AList fun _ : Int => μ) → Prop
  | own {id : Int} {message : μ} (ht : target = some id) (hm : messages.lookup id = some message) :
      Taken messages target (some message) (messages.erase id)
  | single {id : Int} {message : μ} (ht : target ≠ some id)
      (he : messages.entries = [⟨id, message⟩]) : Taken messages target (some message) ∅
  | none (ht : ∀ id, target = some id → messages.lookup id = none)
      (he : ∀ id message, messages.entries ≠ [⟨id, message⟩]) : Taken messages target none messages

theorem takeMessage_taken (messages : AList fun _ : Int => μ) (target : Option Int) :
    Taken messages target (takeMessage messages target).1 (takeMessage messages target).2 := by
  unfold takeMessage
  split
  next id message h =>
    obtain ⟨id', rfl, h⟩ := Option.bind_eq_some_iff.mp h
    obtain ⟨message', hm, h⟩ := Option.map_eq_some_iff.mp h
    obtain ⟨rfl, rfl⟩ := Prod.mk.inj h
    exact .own rfl hm
  next h =>
    have hnone : ∀ id, target = some id → messages.lookup id = Option.none := by
      rintro id rfl
      simpa using h
    split
    next id message he =>
      refine .single ?_ he
      intro ht
      have := hnone id ht
      rw [lookup_of_single he, if_pos rfl] at this
      simp at this
    next hne => exact .none hnone fun id message he => hne id message he

end Grammers.Messages
