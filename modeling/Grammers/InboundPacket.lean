import Grammers.InboundEffect

namespace Grammers

open Checked StateError SortedSearch

namespace Inbound

variable {z : Bytes → Inflated} {w : World}

theorem handle_container (container : ManualTl.Message → Nat → Act Unit) (message : ManualTl.Message) (depth : Nat)
    (fresh : Bool) : handle z w container message depth fresh Encrypted.messageContainer =
      container message depth := by
  rfl

/-- A relation that each part of the processing of a packet keeps to, so that the whole does. -/
structure Coarse (R : Inbound → Inbound → Prop) : Prop where
  trans : ∀ {s s' s''}, R s s' → R s' s'' → R s s''
  effect : ∀ {id u c s s'}, Effect id u c s s' → R s s'
  remembered : ∀ id s, R s (remembered id s)
  opened : ∀ s : Inbound, R s { s with budget :=
    { s.budget with pendingReceived := some (s.budget.pendingReceived.getD []) } }

namespace Coarse

variable {R : Inbound → Inbound → Prop} {α β : Type}

theorem bind {m : Act α} {k : α → Act β} (hR : Coarse R) (h : Moves R m)
    (h' : ∀ a, Moves R (k a)) : Moves R (m >>= k) :=
  Moves.bind h h' (fun _ _ ha => ha) fun _ _ _ => hR.trans

theorem acts {id : Int64} {u c : Nat} {m : Act α} (hR : Coarse R) (h : Acts id u c m) : Moves R m :=
  Moves.mono h fun _ _ => hR.effect

theorem pure (hR : Coarse R) (a : α) : Moves R (Pure.pure a : Act α) :=
  hR.acts (Acts.pure (i := 0) (u := 0) (c := 0) a)

theorem lift (hR : Coarse R) (x : Parsed α) : Moves R (Inbound.lift x) :=
  hR.acts (Acts.lift (i := 0) (u := 0) (c := 0) x)

theorem handle {container : ManualTl.Message → Nat → Act Unit} (hR : Coarse R) (message : ManualTl.Message)
    (depth : Nat) {fresh : Bool} {constructor : UInt32}
    (hkind : fresh = true ∨ retires constructor = true)
    (hcontainer : Moves R (container message depth)) :
    Moves R (Inbound.handle z w container message depth fresh constructor) := by
  by_cases h : constructor = Encrypted.messageContainer
  · rw [h, handle_container]
    exact hcontainer
  · exact hR.acts (acts_handle hkind fun h' => absurd h' h)

theorem processMessage {container : ManualTl.Message → Nat → Act Unit} (hR : Coarse R)
    (hcontainer : ∀ message depth, Moves R (container message depth)) (message : ManualTl.Message)
    (depth : Nat) : Moves R (Inbound.processMessage z w container message depth) := by
  refine Moves.get fun s => ?_
  split
  next => exact hR.acts (acts_acknowledge (i := 0) message)
  next =>
    refine Moves.get fun s => ?_
    refine hR.bind (hR.acts (acts_unwrap (i := 0) _ _ _)) fun unwrapped => ?_
    refine hR.bind (hR.acts (acts_acknowledge (i := 0) _)) fun _ => ?_
    refine hR.bind (hR.lift _) fun constructor => ?_
    split
    next hkind =>
      refine hR.bind (hR.handle _ _ hkind (hcontainer _ _)) fun _ => ?_
      split
      next => exact Moves.modify (hR.remembered _)
      next => exact hR.pure _
    next => exact hR.pure _

theorem processInner (hR : Coarse R) (message : ManualTl.Message) (depth : Nat) :
    Moves R (Inbound.processInner z w message depth) :=
  hR.processMessage (fun _ _ => hR.acts (Acts.fail (i := 0) (u := 0) (c := 0) _)) message depth

theorem processAll (hR : Coarse R) (depth : Nat) (messages : List ManualTl.Message) :
    Moves R (Inbound.processAll z w depth messages) := by
  induction messages with
  | nil => exact hR.pure _
  | cons inner messages ih => exact hR.bind (hR.processInner inner depth) fun _ => ih

theorem handleContainer (hR : Coarse R) (message : ManualTl.Message) (depth : Nat) :
    Moves R (Inbound.handleContainer z w message depth) :=
  hR.bind (hR.lift _) fun messages =>
    hR.bind (Moves.modify hR.opened) fun _ => hR.processAll _ messages

theorem processBounded (hR : Coarse R) (message : ManualTl.Message) :
    Moves R (Inbound.processBounded z w message) :=
  hR.bind (hR.lift _) fun _ => hR.processMessage hR.handleContainer message 0

end Coarse

theorem remembered_eq (msgId : Int64) (s : Inbound) :
    (∃ ids, remembered msgId s = { s with budget := { s.budget with pendingReceived := some ids } }) ∨
      remembered msgId s =
        { s with mtp := { s.mtp with received := s.mtp.received.rememberReceived msgId } } := by
  unfold remembered
  split
  next ids hids =>
    split
    next => exact Or.inl ⟨_, rfl⟩
    next => exact Or.inl ⟨ids, by rw [← hids]⟩
  next => exact Or.inr rfl

/-! Acknowledgements, whether or not a packet is accepted. -/

/-- What is queued for acknowledgement on the way from one state to another is what was visited. -/
structure Acked (s s' : Inbound) : Prop where
  msgCount : s'.mtp.msgCount = s.mtp.msgCount
  acks : ∃ more, s'.visits = s.visits ++ more ∧
    s'.mtp.pendingAck = s.mtp.pendingAck ++ more.flatMap Visit.ids
  waits : s.mtp.Waits → s'.mtp.Waits

theorem acked_coarse : Coarse Acked where
  trans := by
    intro s s' s'' h h'
    obtain ⟨more, hvisits, hacks⟩ := h.acks
    obtain ⟨more', hvisits', hacks'⟩ := h'.acks
    refine ⟨h'.msgCount.trans h.msgCount, ⟨more ++ more', ?_, ?_⟩, fun hw => h'.waits (h.waits hw)⟩
    · rw [hvisits', hvisits, List.append_assoc]
    · rw [hacks', hacks, List.append_assoc, List.flatMap_append]
  effect := fun h => ⟨h.msgCount, h.acks, h.waits⟩
  remembered := by
    intro id s
    rcases remembered_eq id s with ⟨ids, h⟩ | h
    · rw [h]
      exact ⟨rfl, ⟨[], by simp, by simp⟩, fun h => h⟩
    · rw [h]
      exact ⟨rfl, ⟨[], by simp, by simp⟩, fun h => h⟩
  opened := fun s => ⟨rfl, ⟨[], by simp, by simp⟩, fun h => h⟩

theorem spends_coarse : Coarse Spends where
  trans := Spends.trans
  effect := Effect.spends
  remembered := by
    intro id s
    rcases remembered_eq id s with ⟨ids, h⟩ | h
    · rw [h]
      exact .same rfl rfl rfl rfl
    · rw [h]
      exact .same rfl rfl rfl rfl
  opened := fun s => .same rfl rfl rfl rfl

/-- In a container nothing is recorded yet. -/
def Held (s s' : Inbound) : Prop :=
  s.budget.pendingReceived ≠ none →
    s'.mtp.received = s.mtp.received ∧ s'.budget.pendingReceived ≠ none

theorem held_coarse : Coarse Held where
  trans := by
    intro s s' s'' h h' hs
    obtain ⟨h₁, h₂⟩ := h hs
    obtain ⟨h₃, h₄⟩ := h' h₂
    exact ⟨h₃.trans h₁, h₄⟩
  effect := fun h hs => ⟨h.received, by rwa [h.pendingReceived]⟩
  remembered := by
    intro id s hs
    obtain ⟨ids, hids⟩ := Option.ne_none_iff_exists'.mp hs
    unfold remembered
    rw [hids]
    simp only
    split
    next => exact ⟨rfl, nofun⟩
    next => exact ⟨rfl, hs⟩
  opened := fun s _ => ⟨rfl, nofun⟩

/-! What is recorded, where a packet is not accepted. -/

theorem received_of_handleContainer {message : ManualTl.Message} {depth : Nat} {s s' : Inbound}
    {e : Fault DeserializeError}
    (h : Inbound.handleContainer z w message depth s = .error e s') :
    s'.mtp.received = s.mtp.received := by
  rcases bind_eq_error.mp h with h | ⟨messages, s₁, h₁, h⟩
  · exact ((Acts.lift (i := 0) (u := 0) (c := 0) _).of_error h).received
  · have hl := ((Acts.lift (i := 0) (u := 0) (c := 0) _).of_ok h₁).received
    rcases bind_eq_error.mp h with h | ⟨_, s₂, h₂, h⟩
    · cases h
    · cases h₂
      have hh := (held_coarse.processAll _ messages).of_error h nofun
      exact hh.1.trans hl

theorem received_of_processMessage {message : ManualTl.Message} {depth : Nat} {s s' : Inbound}
    {e : Fault DeserializeError} (h : Inbound.processMessage z w
      (Inbound.handleContainer z w) message depth s = .error e s') :
    s'.mtp.received = s.mtp.received := by
  rcases bind_eq_error.mp h with h | ⟨_, _, hget, h⟩
  · cases h
  cases hget
  split at h
  next => exact ((acts_acknowledge (i := 0) message).of_error h).received
  next =>
    rcases bind_eq_error.mp h with h | ⟨_, _, hget, h⟩
    · cases h
    cases hget
    rcases bind_eq_error.mp h with h | ⟨⟨m, d⟩, s₁, h₁, h⟩
    · exact ((acts_unwrap (i := 0) _ _ _).of_error h).received
    rw [← ((acts_unwrap (i := 0) _ _ _).of_ok h₁).received]
    rcases bind_eq_error.mp h with h | ⟨_, s₂, h₂, h⟩
    · exact ((acts_acknowledge (i := 0) _).of_error h).received
    rw [← ((acts_acknowledge (i := 0) _).of_ok h₂).received]
    rcases bind_eq_error.mp h with h | ⟨constructor, s₃, h₃, h⟩
    · exact ((Acts.lift (i := 0) (u := 0) (c := 0) _).of_error h).received
    rw [← ((Acts.lift (i := 0) (u := 0) (c := 0) _).of_ok h₃).received]
    split at h
    next hkind =>
      rcases bind_eq_error.mp h with h | ⟨_, s₄, _, h⟩
      · by_cases hc : constructor = Encrypted.messageContainer
        · rw [hc, handle_container] at h
          exact received_of_handleContainer h
        · exact ((acts_handle hkind fun h' => absurd h' hc).of_error h).received
      · split at h
        next => cases h
        next => cases h
    next => cases h

theorem received_of_processBounded {message : ManualTl.Message} {s s' : Inbound}
    {e : Fault DeserializeError} (h : processBounded z w message s = .error e s') :
    s'.mtp.received = s.mtp.received := by
  rcases bind_eq_error.mp h with h | ⟨_, s₁, h₁, h⟩
  · exact ((Acts.lift (i := 0) (u := 0) (c := 0) _).of_error h).received
  · have hl := ((Acts.lift (i := 0) (u := 0) (c := 0) _).of_ok h₁).received
    exact (received_of_processMessage h).trans hl

/-! Updates and changes, where a packet is accepted. -/

/-- So far the updates and the changes of a packet are on behalf of the messages listed, of each
one at the most once, and all of these were new when the packet came. -/
structure Told (r : Received) (service : List FutureSalt × Int64 × Int32) (ids : List Int64)
    (s : Inbound) : Prop where
  floor : s.budget.replayFloor = r.floor
  new : ∀ id ∈ ids, 0 < id ∧ r.floor < id ∧ r.ids.contains id = false
  sorted : Sorted Int64.toInt ids
  updates : (updateIdsOf s.deserialization).Nodup ∧ ∀ id ∈ updateIdsOf s.deserialization, id ∈ ids
  changes : s.changes.Nodup ∧ ∀ id ∈ s.changes, id ∈ ids
  service : s.changes = [] → s.mtp.service = service

variable {r : Received} {service : List FutureSalt × Int64 × Int32} {ids : List Int64}
  {s s' : Inbound} {id : Int64}

namespace Told

theorem effect (h : Told r service ids s) (he : Effect id 0 0 s s') : Told r service ids s' := by
  obtain ⟨new, hnew, _, hu⟩ := he.items
  obtain ⟨n, hn, hchanges, hservice⟩ := he.changes
  obtain rfl : n = 0 := by omega
  have hnone : updateIdsOf new = [] := List.eq_nil_of_length_eq_zero (by omega)
  have hitems : updateIdsOf s'.deserialization = updateIdsOf s.deserialization := by
    rw [hnew, updateIdsOf_append, hnone, List.append_nil]
  rw [List.replicate_zero, List.append_nil] at hchanges
  refine ⟨he.replayFloor.trans h.floor, h.new, h.sorted, ?_, ?_, ?_⟩
  · rw [hitems]
    exact h.updates
  · rw [hchanges]
    exact h.changes
  · intro hnil
    rw [hservice rfl]
    exact h.service (hchanges ▸ hnil)

theorem updateIdsOf_eq_replicate {new : List (Int64 × Deserialization)}
    (htag : ∀ p ∈ new, p.1 = id) : updateIdsOf new = List.replicate (updateIdsOf new).length id := by
  refine List.eq_replicate_iff.mpr ⟨rfl, fun x hx => ?_⟩
  obtain ⟨p, hp, rfl⟩ := List.mem_map.mp hx
  exact htag p (List.mem_of_mem_filter hp)

/-- At most one more, for a message that is not among the others. -/
theorem nodup_append_replicate {xs : List Int64} {n : Nat} (h : xs.Nodup) (hid : id ∉ xs)
    (hn : n ≤ 1) : (xs ++ List.replicate n id).Nodup := by
  rcases Nat.le_one_iff_eq_zero_or_eq_one.mp hn with rfl | rfl
  · simpa using h
  · refine List.nodup_append.mpr ⟨h, by simp, ?_⟩
    intro x hx y hy hxy
    obtain rfl : y = id := by simpa using hy
    exact hid (hxy ▸ hx)

theorem mem_append_replicate {xs : List Int64} {n : Nat} {x : Int64}
    (h : x ∈ xs ++ List.replicate n id) : x ∈ xs ∨ x = id := by
  rcases List.mem_append.mp h with h | h
  · exact Or.inl h
  · exact Or.inr (List.eq_of_mem_replicate h)

theorem mem_upsert_iff (hs : Sorted Int64.toInt ids) (x : Int64) :
    x ∈ upsert Int64.toInt ids id ↔ x = id ∨ x ∈ ids := by
  rw [mem_upsert hs]
  constructor
  · rintro (h | h)
    · exact Or.inl h
    · exact Or.inr h.1
  · rintro (h | h)
    · exact Or.inl h
    · by_cases hx : x = id
      · exact Or.inl hx
      · exact Or.inr ⟨h, fun he => hx (Int64.toInt_inj.mp he)⟩

/-- One more message that is new. -/
theorem insert (h : Told r service ids s)
    (hid : 0 < id ∧ r.floor < id ∧ r.ids.contains id = false) :
    Told r service (upsert Int64.toInt ids id) s := by
  refine ⟨h.floor, fun x hx => ?_, upsert_sorted h.sorted id, ⟨h.updates.1, fun x hx => ?_⟩,
    ⟨h.changes.1, fun x hx => ?_⟩, h.service⟩
  · rcases (mem_upsert_iff h.sorted x).mp hx with rfl | hx
    · exact hid
    · exact h.new x hx
  · exact (mem_upsert_iff h.sorted x).mpr (Or.inr (h.updates.2 x hx))
  · exact (mem_upsert_iff h.sorted x).mpr (Or.inr (h.changes.2 x hx))

theorem extend (h : Told r service ids s)
    (hid : 0 < id ∧ r.floor < id ∧ r.ids.contains id = false) (hnot : id ∉ ids)
    (he : Effect id 1 1 s s') : Told r service (upsert Int64.toInt ids id) s' := by
  have hi := h.insert hid
  obtain ⟨new, hnew, htag, hu⟩ := he.items
  obtain ⟨n, hn, hchanges, hservice⟩ := he.changes
  have hitems : updateIdsOf s'.deserialization =
      updateIdsOf s.deserialization ++ List.replicate (updateIdsOf new).length id := by
    rw [hnew, updateIdsOf_append, ← updateIdsOf_eq_replicate htag]
  have hself : id ∈ upsert Int64.toInt ids id := (mem_upsert_iff h.sorted id).mpr (Or.inl rfl)
  refine ⟨he.replayFloor.trans h.floor, hi.new, hi.sorted, ⟨?_, fun x hx => ?_⟩,
    ⟨?_, fun x hx => ?_⟩, fun hnil => ?_⟩
  · rw [hitems]
    exact nodup_append_replicate h.updates.1 (fun hm => hnot (h.updates.2 id hm)) hu
  · rw [hitems] at hx
    rcases mem_append_replicate hx with hx | rfl
    · exact hi.updates.2 x hx
    · exact hself
  · rw [hchanges]
    exact nodup_append_replicate h.changes.1 (fun hm => hnot (h.changes.2 id hm)) hn
  · rw [hchanges] at hx
    rcases mem_append_replicate hx with hx | rfl
    · exact hi.changes.2 x hx
    · exact hself
  · rw [hchanges, List.append_eq_nil_iff, List.replicate_eq_nil_iff] at hnil
    rw [hservice hnil.2]
    exact h.service hnil.1

end Told

/-- Unpacking leaves the header of a message. -/
theorem unwrap_msgId (more : Nat) : ∀ {message : ManualTl.Message} {depth : Nat} {s s' : Inbound}
    {unwrapped : ManualTl.Message × Nat}, unwrap z more message depth s = .ok unwrapped s' →
      unwrapped.1.msgId = message.msgId := by
  induction more with
  | zero => exact nofun
  | succ more ih =>
    intro message depth s s' unwrapped h
    obtain ⟨_, _, _, h⟩ := bind_eq_ok.mp h
    obtain ⟨constructor, _, _, h⟩ := bind_eq_ok.mp h
    split at h
    next =>
      cases h
      rfl
    next =>
      obtain ⟨body, _, _, h⟩ := bind_eq_ok.mp h
      have := ih h
      exact this

/-- What a message that is not known comes to: it is unpacked and acknowledged, and then it is
handled if that may be. -/
theorem processNew_ok {container : ManualTl.Message → Nat → Act Unit} {message : ManualTl.Message} {depth : Nat}
    {fresh : Bool} (hfresh : fresh = decide (s.budget.replayFloor < message.msgId))
    (h : processNew z w container message depth s = .ok () s') :
    ∃ m d constructor s₁, m.msgId = message.msgId ∧ Effect message.msgId 0 0 s s₁ ∧
      (fresh = false ∧ s' = s₁ ∨ (fresh = true ∨ retires constructor = true) ∧
        ∃ s₂, handle z w container m d fresh constructor s₁ = .ok () s₂ ∧
          s' = if fresh then remembered message.msgId s₂ else s₂) := by
  subst hfresh
  obtain ⟨_, _, hget, h⟩ := bind_eq_ok.mp h
  cases hget
  obtain ⟨⟨m, d⟩, s₁, hu, h⟩ := bind_eq_ok.mp h
  obtain ⟨_, s₂, ha, h⟩ := bind_eq_ok.mp h
  obtain ⟨constructor, s₃, hc, h⟩ := bind_eq_ok.mp h
  have hid := unwrap_msgId _ hu
  have he : Effect message.msgId 0 0 s s₃ := by
    have h₁ := (acts_unwrap (i := message.msgId) _ _ _).of_ok hu
    have h₂ := (acts_acknowledge (i := message.msgId) _).of_ok ha
    have h₃ := (Acts.lift (i := message.msgId) (u := 0) (c := 0) _).of_ok hc
    exact (h₁.trans h₂).trans h₃
  refine ⟨m, d, constructor, s₃, hid, he, ?_⟩
  split at h
  next hkind =>
    obtain ⟨_, s₄, hh, h⟩ := bind_eq_ok.mp h
    refine Or.inr ⟨hkind, s₄, hh, ?_⟩
    split at h
    next hf =>
      cases h
      rw [if_pos hf, hid]
    next hf =>
      cases h
      rw [if_neg hf]
  next hkind =>
    cases h
    exact Or.inl ⟨by simpa using fun hf => hkind (Or.inl hf), rfl⟩

/-- Between the messages of a container, which are recorded after it. -/
def Inside (r : Received) (service : List FutureSalt × Int64 × Int32) (s : Inbound) : Prop :=
  s.mtp.received = r ∧ ∃ ids, s.budget.pendingReceived = some ids ∧ Told r service ids s

theorem remembered_some (hp : s.budget.pendingReceived = some ids)
    (hs : Sorted Int64.toInt ids) (msgId : Int64) : remembered msgId s =
      { s with budget :=
        { s.budget with pendingReceived := some (upsert Int64.toInt ids msgId) } } := by
  unfold remembered upsert
  rw [hp]
  rcases hs.split msgId.toInt with ⟨left, x, right, rfl, hx⟩ | ⟨left, right, rfl, hl, hr⟩
  · obtain rfl := Int64.toInt_inj.mp hx
    simp only [binarySearchByKey_ok hs]
    rw [List.set_append_right _ _ (Nat.le_refl _), Nat.sub_self, List.set_cons_zero, ← hp]
  · simp only [binarySearchByKey_error hl hr]

theorem remembered_none (hp : s.budget.pendingReceived = none) (msgId : Int64) : remembered msgId s =
    { s with mtp := { s.mtp with received := s.mtp.received.rememberReceived msgId } } := by
  unfold remembered
  rw [hp]

theorem Inside.remembered (h : Inside r service s)
    (hid : 0 < id ∧ r.floor < id ∧ r.ids.contains id = false) :
    Inside r service (remembered id s) := by
  obtain ⟨hr, ids, hp, ht⟩ := h
  rw [remembered_some hp ht.sorted]
  have hi := ht.insert hid
  exact ⟨hr, _, rfl, hi.floor, hi.new, hi.sorted, hi.updates, hi.changes, hi.service⟩

theorem known_eq_false {msgId : Int64} (hp : s.budget.pendingReceived = some ids)
    (hs : Sorted Int64.toInt ids) (h : s.known msgId = false) :
    s.mtp.received.ids.contains msgId = false ∧ msgId ∉ ids := by
  unfold known at h
  rw [Bool.or_eq_false_iff, hp] at h
  refine ⟨h.1, fun hm => ?_⟩
  have hok := (isOk_binarySearchByKey hs).mpr ⟨msgId, hm, rfl⟩
  rw [Option.any_some, hok] at h
  exact Bool.noConfusion h.2

theorem Inside.effect (h : Inside r service s) (he : Effect id 0 0 s s') : Inside r service s' := by
  obtain ⟨hr, ids, hp, ht⟩ := h
  exact ⟨he.received.trans hr, ids, he.pendingReceived.trans hp, ht.effect he⟩

theorem processMessage_ok {container : ManualTl.Message → Nat → Act Unit} {message : ManualTl.Message} {depth : Nat}
    (h : processMessage z w container message depth s = .ok () s') :
    (s.known message.msgId = true ∧ Effect message.msgId 0 0 s s') ∨
      s.known message.msgId = false ∧ processNew z w container message depth s = .ok () s' := by
  obtain ⟨_, _, hget, h⟩ := bind_eq_ok.mp h
  cases hget
  split at h
  next hk => exact Or.inl ⟨hk, (acts_acknowledge message).of_ok h⟩
  next hk => exact Or.inr ⟨by simpa using hk, h⟩

/-- The messages of a container tell and change what is new, once. -/
theorem Inside.of_processInner {message : ManualTl.Message} {depth : Nat} (hi : Inside r service s)
    (hpos : 0 < message.msgId) (h : processInner z w message depth s = .ok () s') :
    Inside r service s' := by
  rcases processMessage_ok h with ⟨_, he⟩ | ⟨hk, h⟩
  · exact hi.effect he
  · obtain ⟨m, d, constructor, s₁, hm, he, h⟩ := processNew_ok rfl h
    obtain ⟨hr, ids, hp, ht⟩ := hi
    have hi₁ : Inside r service s₁ := Inside.effect ⟨hr, ids, hp, ht⟩ he
    obtain ⟨hnew, hnot⟩ := known_eq_false hp ht.sorted hk
    rcases h with ⟨_, rfl⟩ | ⟨hkind, s₂, hh, rfl⟩
    · exact hi₁
    · have hact := (acts_handle (z := z) (w := w) hkind fun _ => .fail _).of_ok hh
      rw [hm] at hact
      cases hf : decide (s.budget.replayFloor < message.msgId) with
      | false =>
        rw [hf] at hact
        exact hi₁.effect hact
      | true =>
        rw [hf] at hact
        have hid : 0 < message.msgId ∧ r.floor < message.msgId ∧
            r.ids.contains message.msgId = false := by
          rw [decide_eq_true_eq, ht.floor] at hf
          exact ⟨hpos, hf, hr ▸ hnew⟩
        have ht₂ := (ht.effect he).extend hid hnot hact
        have hp₂ := hact.pendingReceived.trans (he.pendingReceived.trans hp)
        rw [if_pos rfl, remembered_some hp₂ ht.sorted]
        exact ⟨hact.received.trans (he.received.trans hr), _, rfl, ht₂.floor, ht₂.new, ht₂.sorted,
          ht₂.updates, ht₂.changes, ht₂.service⟩

theorem Inside.of_processAll {depth : Nat} {messages : List ManualTl.Message} :
    ∀ {s : Inbound}, Inside r service s → (∀ m ∈ messages, 0 < m.msgId) →
      processAll z w depth messages s = .ok () s' → Inside r service s' := by
  induction messages with
  | nil =>
    intro s hi _ h
    cases h
    exact hi
  | cons inner messages ih =>
    intro s hi hpos h
    obtain ⟨_, s₁, h₁, h⟩ := bind_eq_ok.mp h
    exact ih (hi.of_processInner (hpos inner (by simp)) h₁) (fun m hm => hpos m (by simp [hm])) h

theorem checkMessages_valid {parent : Int64} {n : Nat} : ∀ {c c' : CursorReader.Cursor Nat}
    {messages : List ManualTl.Message}, checkMessages parent n c = .ok (messages, c') →
      ∀ m ∈ messages, validInner parent m = true := by
  induction n with
  | zero =>
    intro c c' messages h
    cases h
    simp
  | succ n ih =>
    intro c c' messages h
    obtain ⟨⟨inner, c₁⟩, _, h⟩ := bind_eq_ok h
    simp only at h
    split at h
    next => cases h
    next hvalid =>
      obtain ⟨⟨rest, c₂⟩, hrest, h⟩ := bind_eq_ok h
      cases h
      intro m hm
      rcases List.mem_cons.mp hm with rfl | hm
      · simpa using hvalid
      · exact ih hrest m hm

theorem borrowedMessagesValidated_pos {bytes : Bytes} {parent : Int64} {messages : List ManualTl.Message}
    (h : borrowedMessagesValidated bytes parent = .ok messages) : ∀ m ∈ messages, 0 < m.msgId := by
  obtain ⟨⟨constructor, c⟩, _, h⟩ := bind_eq_ok h
  simp only at h
  split at h
  next => cases h
  next =>
    obtain ⟨⟨count, c⟩, _, h⟩ := bind_eq_ok h
    simp only at h
    split at h
    next => cases h
    next =>
      split at h
      next => cases h
      next =>
        obtain ⟨⟨rest, check⟩, hrest, h⟩ := bind_eq_ok h
        simp only at h
        split at h
        next => cases h
        next =>
          cases h
          intro m hm
          have := checkMessages_valid hrest m hm
          simp only [validInner, decide_eq_true_eq] at this
          exact this.1

/-- Before any message of a packet was handled. -/
structure Outside (r : Received) (service : List FutureSalt × Int64 × Int32) (s : Inbound) :
    Prop where
  received : s.mtp.received = r
  pendingReceived : s.budget.pendingReceived = none
  told : Told r service [] s

theorem Outside.effect (h : Outside r service s) (he : Effect id 0 0 s s') :
    Outside r service s' :=
  ⟨he.received.trans h.received, he.pendingReceived.trans h.pendingReceived, h.told.effect he⟩

theorem Outside.of_handleContainer {message : ManualTl.Message} {depth : Nat} (ho : Outside r service s)
    (h : handleContainer z w message depth s = .ok () s') : Inside r service s' := by
  obtain ⟨messages, s₁, hl, h⟩ := bind_eq_ok.mp h
  obtain ⟨_, s₂, hm, h⟩ := bind_eq_ok.mp h
  have hpos : ∀ m ∈ messages, 0 < m.msgId := by
    unfold lift at hl
    split at hl
    next hok =>
      cases hl
      exact borrowedMessagesValidated_pos hok
    next => cases hl
  have ho₁ := ho.effect ((Acts.lift (i := 0) (u := 0) (c := 0) _).of_ok hl)
  have hi : Inside r service s₂ := by
    have ht := ho₁.told
    cases hm
    refine ⟨ho₁.received, [], ?_, ht.floor, ht.new, ht.sorted, ht.updates, ht.changes, ht.service⟩
    simp [ho₁.pendingReceived]
  exact hi.of_processAll hpos h

/-- What a packet told and changed, when all that it left to be recorded is. -/
def Done (r : Received) (service : List FutureSalt × Int64 × Int32) (s : Inbound) : Prop :=
  ∃ ids, Told r service ids s ∧
    (s.budget.pendingReceived.getD []).foldl Received.rememberReceived s.mtp.received =
      ids.foldl Received.rememberReceived r

theorem Inside.done (h : Inside r service s) : Done r service s := by
  obtain ⟨hr, ids, hp, ht⟩ := h
  exact ⟨ids, ht, by rw [hp, hr, Option.getD_some]⟩

theorem Outside.done (h : Outside r service s) : Done r service s :=
  ⟨[], h.told, by rw [h.pendingReceived, h.received, Option.getD_none]⟩

theorem Outside.of_processMessage {message : ManualTl.Message} {depth : Nat} (ho : Outside r service s)
    (hpos : 0 < message.msgId)
    (h : processMessage z w (handleContainer z w) message depth s = .ok () s') :
    Done r service s' := by
  rcases processMessage_ok h with ⟨_, he⟩ | ⟨hk, h⟩
  · exact (ho.effect he).done
  · obtain ⟨m, d, constructor, s₁, hm, he, h⟩ := processNew_ok rfl h
    have ho₁ := ho.effect he
    rcases h with ⟨_, rfl⟩ | ⟨hkind, s₂, hh, rfl⟩
    · exact ho₁.done
    · have hid : decide (s.budget.replayFloor < message.msgId) = true →
          0 < message.msgId ∧ r.floor < message.msgId ∧ r.ids.contains message.msgId = false := by
        intro hf
        rw [decide_eq_true_eq, ho.told.floor] at hf
        unfold known at hk
        rw [Bool.or_eq_false_iff, ho.received] at hk
        exact ⟨hpos, hf, hk.1⟩
      by_cases hc : constructor = Encrypted.messageContainer
      · rw [hc, handle_container] at hh
        have hi := ho₁.of_handleContainer hh
        split
        next hf => exact (hi.remembered (hid hf)).done
        next => exact hi.done
      · have hact := (acts_handle (z := z) (w := w) hkind
          fun h' => absurd h' hc).of_ok hh
        rw [hm] at hact
        cases hf : decide (s.budget.replayFloor < message.msgId) with
        | false =>
          rw [hf] at hact
          exact (ho₁.effect hact).done
        | true =>
          rw [hf] at hact
          have ht := ho₁.told.extend (hid hf) (by simp) hact
          have hp := hact.pendingReceived.trans ho₁.pendingReceived
          have hr := hact.received.trans ho₁.received
          refine ⟨[message.msgId], ?_⟩
          rw [if_pos rfl, remembered_none hp]
          refine ⟨⟨ht.floor, ht.new, ht.sorted, ht.updates, ht.changes, ht.service⟩, ?_⟩
          simp only [hp, hr, Option.getD_none, List.foldl_nil, List.foldl_cons]

/-- A packet that is accepted tells and changes what is new, once. -/
theorem done_of_processBounded {message : ManualTl.Message} (m : Encrypted)
    (h : processBounded z w message m.beginPacket = .ok () s') :
    Done m.received m.service s' := by
  obtain ⟨_, s₁, hl, h⟩ := bind_eq_ok.mp h
  have ho : Outside m.received m.service m.beginPacket :=
    ⟨rfl, rfl, rfl, by simp, List.Pairwise.nil, by simp [updateIdsOf, Encrypted.beginPacket],
      by simp [Encrypted.beginPacket], fun _ => rfl⟩
  unfold lift validateHeader at hl
  split at hl
  next hok =>
    cases hl
    split at hok
    next => cases hok
    next hvalid => exact ho.of_processMessage (by simp at hvalid; exact hvalid.1) h
  next => cases hl

end Inbound

end Grammers
