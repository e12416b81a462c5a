import Mathlib.Data.List.Basic
import Grammers.Clock
import Grammers.Inbound
import Grammers.StateError

namespace Grammers

open Checked StateError

/-- What a visit queues for acknowledgement. -/
def Visit.ids : Visit → List Int64
  | .message msgId seqNo => if seqNo % 2 == 1 then [msgId] else []
  | .answer msgId => [msgId]

def Deserialization.isUpdate : Deserialization → Bool
  | .update _ => true
  | .ownUpdate _ _ => true
  | _ => false

/-- The updates among results, by the messages that they came in. -/
def updateIdsOf (items : List (Int64 × Deserialization)) : List Int64 :=
  (items.filter (·.2.isUpdate)).map Prod.fst

namespace Encrypted

/-- An acknowledgement that waits has been waiting since some time. -/
def Waits (m : Encrypted) : Prop := m.pendingAck ≠ [] → m.pendingAckSince ≠ none

/-- What the server tells a session about salts, the clock and the sequence. -/
def service (m : Encrypted) : List FutureSalt × Int64 × Int32 := (m.salts, m.timeOffset, m.sequence)

/-- What messages are stamped with. -/
def clock (s : Encrypted) : Clock := ⟨s.lastMsgId, s.timeOffset, s.sequence⟩

/-- Two sessions that differ only in what processing a message may change apart from
acknowledgements and the record of messages. -/
structure Same (m m' : Encrypted) : Prop where
  received : m'.received = m.received
  msgCount : m'.msgCount = m.msgCount
  pendingAck : m'.pendingAck = m.pendingAck
  pendingAckSince : m'.pendingAckSince = m.pendingAckSince

end Encrypted

namespace Spent

def visits : Spent → Nat
  | .visit _ => 1
  | .decompress _ _ _ => 0

def charge : Spent → Nat
  | .visit _ => 0
  | .decompress _ charge _ => charge

/-- Nothing too deep is visited or opened, and what comes out is charged and not too long. -/
def Within (limits : DecodeLimits) : Spent → Prop
  | .visit depth => depth ≤ limits.depth
  | .decompress depth charge output =>
    depth ≤ limits.depth ∧ charge ≤ limits.gzipOutput ∧ ∀ n ∈ output, n = charge

end Spent

namespace Inbound

/-- What is spent is within the limits and is taken from the budget. -/
structure Spends (s s' : Inbound) : Prop where
  limits : s'.budget.limits = s.budget.limits
  spent : ∃ more, s'.spent = s.spent ++ more ∧ (∀ x ∈ more, x.Within s.budget.limits) ∧
    s.budget.work = s'.budget.work + (more.map Spent.visits).sum ∧
    s.budget.remaining = s'.budget.remaining + (more.map Spent.charge).sum

namespace Spends

theorem same {s s' : Inbound} (hlimits : s'.budget.limits = s.budget.limits)
    (hwork : s'.budget.work = s.budget.work) (hremaining : s'.budget.remaining = s.budget.remaining)
    (hspent : s'.spent = s.spent) : Spends s s' :=
  ⟨hlimits, [], by simp [hspent], by simp, by simp [hwork], by simp [hremaining]⟩

theorem refl (s : Inbound) : Spends s s := same rfl rfl rfl rfl

theorem trans {s s' s'' : Inbound} (h : Spends s s') (h' : Spends s' s'') : Spends s s'' := by
  obtain ⟨more, hspent, hwithin, hwork, hremaining⟩ := h.spent
  obtain ⟨more', hspent', hwithin', hwork', hremaining'⟩ := h'.spent
  refine ⟨h'.limits.trans h.limits, more ++ more', ?_, ?_, ?_, ?_⟩
  · rw [hspent', hspent, List.append_assoc]
  · intro x hx
    rcases List.mem_append.mp hx with hx | hx
    · exact hwithin x hx
    · exact h.limits ▸ hwithin' x hx
  · rw [List.map_append, List.sum_append]
    omega
  · rw [List.map_append, List.sum_append]
    omega

end Spends

/-- What the processing of one message does, with so many updates and changes at the most. -/
structure Effect (i : Int64) (u c : Nat) (s s' : Inbound) : Prop where
  received : s'.mtp.received = s.mtp.received
  msgCount : s'.mtp.msgCount = s.mtp.msgCount
  replayFloor : s'.budget.replayFloor = s.budget.replayFloor
  pendingReceived : s'.budget.pendingReceived = s.budget.pendingReceived
  items : ∃ new, s'.deserialization = s.deserialization ++ new ∧ (∀ p ∈ new, p.1 = i) ∧
    (updateIdsOf new).length ≤ u
  changes : ∃ n ≤ c, s'.changes = s.changes ++ List.replicate n i ∧
    (n = 0 → s'.mtp.service = s.mtp.service)
  acks : ∃ more, s'.visits = s.visits ++ more ∧
    s'.mtp.pendingAck = s.mtp.pendingAck ++ more.flatMap Visit.ids
  waits : s.mtp.Waits → s'.mtp.Waits
  spends : Spends s s'
  lastMsgId : s'.mtp.lastMsgId = s.mtp.lastMsgId ∨ s'.mtp.lastMsgId = 0
  corrections : ∃ more, s'.corrections = s.corrections ++ more ∧
    (more = [] → s'.mtp.clock = s.mtp.clock)

variable {i : Int64} {u c u' c' : Nat} {s s' s'' : Inbound}

theorem updateIdsOf_append (xs ys : List (Int64 × Deserialization)) :
    updateIdsOf (xs ++ ys) = updateIdsOf xs ++ updateIdsOf ys := by
  simp [updateIdsOf]

namespace Effect

theorem refl (i : Int64) (u c : Nat) (s : Inbound) : Effect i u c s s where
  received := rfl
  msgCount := rfl
  replayFloor := rfl
  pendingReceived := rfl
  items := ⟨[], by simp, by simp, by simp [updateIdsOf]⟩
  changes := ⟨0, by omega, by simp, fun _ => rfl⟩
  acks := ⟨[], by simp, by simp⟩
  waits := fun h => h
  spends := .refl s
  lastMsgId := Or.inl rfl
  corrections := ⟨[], by simp, fun _ => rfl⟩

theorem trans (h : Effect i u c s s') (h' : Effect i u' c' s' s'') :
    Effect i (u + u') (c + c') s s'' := by
  obtain ⟨new, hnew, htag, hu⟩ := h.items
  obtain ⟨new', hnew', htag', hu'⟩ := h'.items
  obtain ⟨n, hn, hchanges, hservice⟩ := h.changes
  obtain ⟨n', hn', hchanges', hservice'⟩ := h'.changes
  obtain ⟨more, hvisits, hacks⟩ := h.acks
  obtain ⟨more', hvisits', hacks'⟩ := h'.acks
  obtain ⟨cs, hcs, hclock⟩ := h.corrections
  obtain ⟨cs', hcs', hclock'⟩ := h'.corrections
  refine ⟨h'.received.trans h.received, h'.msgCount.trans h.msgCount,
    h'.replayFloor.trans h.replayFloor, h'.pendingReceived.trans h.pendingReceived,
    ⟨new ++ new', ?_, ?_, ?_⟩, ⟨n + n', by omega, ?_, ?_⟩, ⟨more ++ more', ?_, ?_⟩,
    fun hw => h'.waits (h.waits hw), h.spends.trans h'.spends, ?_, ⟨cs ++ cs', ?_, ?_⟩⟩
  · rw [hnew', hnew, List.append_assoc]
  · intro p hp
    rcases List.mem_append.mp hp with hp | hp
    · exact htag p hp
    · exact htag' p hp
  · rw [updateIdsOf_append, List.length_append]
    omega
  · rw [hchanges', hchanges, List.append_assoc, List.replicate_append_replicate]
  · intro hzero
    rw [hservice' (by omega), hservice (by omega)]
  · rw [hvisits', hvisits, List.append_assoc]
  · rw [hacks', hacks, List.append_assoc, List.flatMap_append]
  · rcases h'.lastMsgId with hl | hl
    · rw [hl]
      exact h.lastMsgId
    · exact Or.inr hl
  · rw [hcs', hcs, List.append_assoc]
  · intro hnil
    obtain ⟨hnil, hnil'⟩ := List.append_eq_nil_iff.mp hnil
    rw [hclock' hnil', hclock hnil]

theorem mono (h : Effect i u c s s') (hu : u ≤ u') (hc : c ≤ c') : Effect i u' c' s s' := by
  obtain ⟨new, hnew, htag, hlen⟩ := h.items
  obtain ⟨n, hn, hchanges⟩ := h.changes
  exact ⟨h.received, h.msgCount, h.replayFloor, h.pendingReceived,
    ⟨new, hnew, htag, hlen.trans hu⟩, ⟨n, hn.trans hc, hchanges⟩, h.acks, h.waits, h.spends, h.lastMsgId,
    h.corrections⟩

end Effect

/-- An action on behalf of a message, with so many updates and changes at the most. -/
def Acts {α : Type} (i : Int64) (u c : Nat) (m : Act α) : Prop := Moves (Effect i u c) m

namespace Acts

variable {α β : Type} {m : Act α} {k : α → Act β}

theorem pure (a : α) : Acts i u c (Pure.pure a) := Moves.pure (Effect.refl i u c)

theorem throw (e : Fault DeserializeError) : Acts i u c (throw e : Act α) :=
  Moves.throw (Effect.refl i u c)

theorem fail (e : DeserializeError) : Acts i u c (Inbound.fail e : Act α) := throw _

theorem bind (h : Acts i u c m) (h' : ∀ a, Acts i u' c' (k a)) :
    Acts i (u + u') (c + c') (m >>= k) :=
  Moves.bind h h' (fun _ _ he => he.mono (by omega) (by omega)) fun _ _ _ he he' => he.trans he'

/-- First something that neither tells nor changes anything. -/
theorem after (h : Acts i 0 0 m) (h' : ∀ a, Acts i u c (k a)) : Acts i u c (m >>= k) := by
  have := h.bind h'
  rwa [Nat.zero_add, Nat.zero_add] at this

theorem get {k : Inbound → Act β} (h : ∀ s, Acts i u c (k s)) :
    Acts i u c (MonadState.get >>= k) := Moves.get h

theorem ite {p : Prop} [Decidable p] {m m' : Act α} (h : p → Acts i u c m)
    (h' : ¬p → Acts i u c m') : Acts i u c (if p then m else m') := by
  by_cases hp : p
  · rw [if_pos hp]
    exact h hp
  · rw [if_neg hp]
    exact h' hp

theorem mono (h : Acts i u c m) (hu : u ≤ u') (hc : c ≤ c') : Acts i u' c' m :=
  Moves.mono h fun _ _ he => he.mono hu hc

theorem lift (x : Parsed α) : Acts i u c (Inbound.lift x) := by
  intro s
  unfold Inbound.lift
  cases x with
  | error e => exact .refl i u c s
  | ok v => exact .refl i u c s

theorem attempt (h : Acts i u c m) : Acts i u c (Inbound.attempt m) := by
  intro s
  have hm := h s
  unfold Inbound.attempt
  cases hr : m s with
  | ok v s' =>
    rw [hr] at hm
    exact hm
  | error e s' =>
    rw [hr] at hm
    cases e with
    | error e => exact hm
    | panic => exact hm

end Acts

theorem Effect.of_spent {b : DecodeBudget} {item : Spent}
    (hfloor : b.replayFloor = s.budget.replayFloor)
    (hpending : b.pendingReceived = s.budget.pendingReceived)
    (hlimits : b.limits = s.budget.limits) (hwithin : item.Within s.budget.limits)
    (hwork : s.budget.work = b.work + item.visits)
    (hremaining : s.budget.remaining = b.remaining + item.charge) :
    Effect i 0 0 s { s with budget := b, spent := s.spent ++ [item] } where
  received := rfl
  msgCount := rfl
  replayFloor := hfloor
  pendingReceived := hpending
  items := (Effect.refl i 0 0 s).items
  changes := (Effect.refl i 0 0 s).changes
  acks := (Effect.refl i 0 0 s).acks
  waits := fun h => h
  spends := ⟨hlimits, [item], rfl, by simpa using hwithin, by simpa using hwork,
    by simpa using hremaining⟩
  lastMsgId := Or.inl rfl
  corrections := (Effect.refl i 0 0 s).corrections

theorem Effect.of_same {m' : Encrypted} (h : s.mtp.Same m') (hs : m'.service = s.mtp.service)
    (hc : m'.clock = s.mtp.clock) : Effect i 0 0 s { s with mtp := m' } where
  received := h.received
  msgCount := h.msgCount
  replayFloor := rfl
  pendingReceived := rfl
  items := (Effect.refl i 0 0 s).items
  changes := ⟨0, Nat.le_refl 0, by simp, fun _ => hs⟩
  acks := ⟨[], by simp, by simpa using h.pendingAck⟩
  waits := fun hw hne => by
    rw [h.pendingAckSince]
    exact hw (by rwa [← h.pendingAck])
  spends := .same rfl rfl rfl rfl
  lastMsgId := Or.inl (congrArg Clock.lastMsgId hc)
  corrections := ⟨[], by simp, fun _ => hc⟩

theorem acts_modifyMtp {f : Encrypted → Encrypted} (h : ∀ m : Encrypted, m.Same (f m))
    (hs : ∀ m, (f m).service = m.service) (hc : ∀ m, (f m).clock = m.clock) :
    Acts i 0 0 (modifyMtp f) :=
  Moves.modify fun s => Effect.of_same (h s.mtp) (hs s.mtp) (hc s.mtp)

theorem acts_change {f : Encrypted → Encrypted} (h : ∀ m : Encrypted, m.Same (f m))
    (hc : ∀ m, (f m).clock = m.clock) : Acts i 0 1 (change i f) := by
  refine Moves.modify fun s => ⟨(h _).received, (h _).msgCount, rfl, rfl,
    (Effect.refl i 0 0 s).items, ⟨1, Nat.le_refl 1, by simp, nofun⟩,
    ⟨[], by simp, by simpa using (h s.mtp).pendingAck⟩, ?_, .same rfl rfl rfl rfl,
    Or.inl (congrArg Clock.lastMsgId (hc s.mtp)), ⟨[], by simp, fun _ => hc s.mtp⟩⟩
  intro hw hne
  rw [(h _).pendingAckSince]
  exact hw (by rwa [← (h _).pendingAck])

theorem acts_correct {f : Encrypted → Encrypted} (h : ∀ m : Encrypted, m.Same (f m))
    (hl : ∀ m : Encrypted, (f m).lastMsgId = m.lastMsgId ∨ (f m).lastMsgId = 0) :
    Acts i 0 1 (correct i f) := by
  refine Moves.modify fun s => ⟨(h _).received, (h _).msgCount, rfl, rfl,
    (Effect.refl i 0 0 s).items, ⟨1, Nat.le_refl 1, by simp, nofun⟩,
    ⟨[], by simp, by simpa using (h s.mtp).pendingAck⟩, ?_, .same rfl rfl rfl rfl, hl s.mtp,
    ⟨[i], rfl, nofun⟩⟩
  intro hw hne
  rw [(h _).pendingAckSince]
  exact hw (by rwa [← (h _).pendingAck])

theorem acts_emit (item : Deserialization) : Acts i (if item.isUpdate then 1 else 0) 0 (emit i item) := by
  refine Moves.modify fun s => ⟨rfl, rfl, rfl, rfl, ⟨[(i, item)], rfl, by simp, ?_⟩,
    (Effect.refl i 0 0 s).changes, (Effect.refl i 0 0 s).acks, fun h => h,
    .same rfl rfl rfl rfl, Or.inl rfl, (Effect.refl i 0 0 s).corrections⟩
  cases h : item.isUpdate with
  | false => simp [updateIdsOf, h]
  | true => simp [updateIdsOf, h]

theorem acts_emit_other {item : Deserialization} (h : item.isUpdate = false) :
    Acts i 0 0 (emit i item) := by
  have := acts_emit (i := i) item
  rwa [h] at this

/-- What is read first is the state. -/
theorem final_get {α : Type} (k : Inbound → Act α) (s : Inbound) :
    final ((get >>= k : Act α) s) = final (k s s) := rfl

theorem acts_visit (depth : Nat) : Acts i 0 0 (visit depth) := by
  intro s
  unfold visit
  rw [final_get]
  split
  next => exact .refl i 0 0 s
  next hroom =>
    rw [not_or, not_lt] at hroom
    exact .of_spent rfl rfl rfl hroom.1 (by simp only [Spent.visits]; omega) rfl

variable {z : Bytes → Inflated} {w : World}

theorem length_decompressFromBytesLimited {bytes body : Bytes} {limit : Nat}
    (h : decompressFromBytesLimited z bytes limit = .ok body) : body.length ≤ limit := by
  obtain ⟨⟨constructor, c⟩, _, h⟩ := Checked.bind_eq_ok h
  simp only at h
  split at h
  next => cases h
  next =>
    obtain ⟨⟨packed, c⟩, _, h⟩ := Checked.bind_eq_ok h
    simp only at h
    split at h
    next => cases h
    next =>
      unfold decompressPayloadLimited at h
      simp only at h
      split at h
      next => cases h
      next hlimit =>
        cases hended : (z packed).ended with
        | none =>
          rw [hended] at h
          cases h
        | some position =>
          rw [hended] at h
          simp only at h
          split at h
          next => cases h
          next =>
            cases h
            omega

theorem acts_decompress (bytes : Bytes) (depth : Nat) :
    Acts i 0 0 (decompress z bytes depth) := by
  intro s
  unfold decompress
  rw [final_get]
  split
  next => exact .refl i 0 0 s
  next hdepth =>
    rw [not_lt] at hdepth
    simp only
    cases hbody : decompressFromBytesLimited z bytes
        (min s.budget.limits.gzipOutput s.budget.remaining) with
    | ok body =>
      have hlen := length_decompressFromBytesLimited hbody
      refine .of_spent rfl rfl rfl ⟨hdepth, by omega, by simp⟩ rfl ?_
      simp only [Spent.charge]
      omega
    | error e =>
      refine .of_spent rfl rfl rfl ⟨hdepth, by omega, by simp⟩ rfl ?_
      simp only [Spent.charge]
      omega

theorem acts_unwrap (more : Nat) :
    ∀ (message : ManualTl.Message) (depth : Nat), Acts i 0 0 (unwrap z more message depth) := by
  induction more with
  | zero => exact fun _ _ => .fail _
  | succ more ih =>
    intro message depth
    refine (acts_visit depth).after fun _ => (Acts.lift _).after fun constructor => ?_
    split
    next => exact .pure _
    next => exact (acts_decompress _ _).after fun body => ih _ _

theorem acts_unwrapResult (more : Nat) :
    ∀ (result : Bytes) (depth : Nat), Acts i 0 0 (unwrapResult z more result depth) := by
  induction more with
  | zero =>
    intro result depth
    rw [unwrapResult]
    split
    next => exact .pure _
    next => exact .pure _
  | succ more ih =>
    intro result depth
    rw [unwrapResult]
    split
    next =>
      refine ((acts_visit _).after fun _ => acts_decompress _ _).attempt.after fun body => ?_
      cases body with
      | ok body => exact ih _ _
      | error e => exact .pure _
    next => exact .pure _

theorem acts_failSaltRequest (msgId : MsgId) : Acts i 0 0 (failSaltRequest msgId) := by
  refine .get fun s => ?_
  split
  next => exact .pure _
  next =>
    refine .after ?_ fun _ => .pure _
    exact acts_modifyMtp (fun m => ⟨rfl, rfl, rfl, rfl⟩) (fun _ => rfl) fun _ => rfl

theorem acts_storeOwnUpdates (msgId : MsgId) (body : Bytes) :
    Acts i 1 0 (storeOwnUpdates i msgId body) := by
  refine .get fun s => ?_
  split
  next =>
    split
    next =>
      split
      next => exact acts_emit (.ownUpdate msgId body)
      next => exact .pure _
    next => exact .pure _
  next => exact .pure _

/-- What a message may change of the session, if it is new. -/
def once (fresh : Bool) : Nat := if fresh then 1 else 0

theorem acts_handleFutureSalts (message : ManualTl.Message) (fresh : Bool) :
    Acts message.msgId 0 (once fresh) (handleFutureSalts w message fresh) := by
  refine (Acts.lift _).after fun salts => ?_
  split
  next => exact .fail _
  next =>
    refine .get fun s => ?_
    have hretired : Acts message.msgId 0 0 (modifyMtp fun m => { m with saltRequestMsgId := none }) :=
      acts_modifyMtp (fun m => ⟨rfl, rfl, rfl, rfl⟩) (fun _ => rfl) fun _ => rfl
    have hcounted : Acts message.msgId 0 0 (modifyMtp countSaltFailure) :=
      acts_modifyMtp (fun m => ⟨rfl, rfl, rfl, rfl⟩) (fun _ => rfl) fun _ => rfl
    have hrest : Acts message.msgId 0 (once fresh)
        (if !fresh ∨ salts.salts = [] then
          if s.mtp.saltRequestMsgId = some salts.reqMsgId then modifyMtp countSaltFailure
          else pure PUnit.unit
        else change message.msgId (applySalts w salts)) := by
      split
      next =>
        split
        next => exact hcounted.mono (Nat.zero_le _) (Nat.zero_le _)
        next => exact .pure _
      next hfresh =>
        have : fresh = true := by cases fresh <;> simp_all
        subst this
        exact acts_change (fun m => ⟨rfl, rfl, rfl, rfl⟩) fun _ => rfl
    simp only
    split
    next hi =>
      simp only [hi, ↓reduceIte] at hrest
      exact hretired.after fun _ => hrest
    next hi =>
      simp only [hi, ↓reduceIte] at hrest
      exact (acts_emit_other rfl).after fun _ => hrest

theorem acts_reportFailure (msgId : MsgId) (error : DeserializeError) :
    Acts i 0 0 (reportFailure i msgId error) := by
  refine (acts_failSaltRequest msgId).after fun internal => ?_
  split
  next => exact .pure _
  next => exact acts_emit_other rfl

theorem acts_handleRpcResult (message : ManualTl.Message) (depth : Nat) (fresh : Bool) :
    Acts message.msgId (once fresh) (once fresh) (handleRpcResult z w message depth fresh) := by
  have hreport : ∀ msgId error, Acts message.msgId (once fresh) (once fresh)
      (reportFailure message.msgId msgId error) :=
    fun msgId error => (acts_reportFailure msgId error).mono (Nat.zero_le _) (Nat.zero_le _)
  have hgiveUp : ∀ msgId, Acts message.msgId (once fresh) (once fresh)
      (do let _ ← failSaltRequest msgId; pure ()) :=
    fun msgId => (acts_failSaltRequest msgId).after fun _ => .pure _
  have hother : ∀ {item : Deserialization}, item.isUpdate = false →
      Acts message.msgId (once fresh) (once fresh) (emit message.msgId item) :=
    fun h => (acts_emit_other h).mono (Nat.zero_le _) (Nat.zero_le _)
  refine (Acts.lift _).after fun parts => ?_
  refine .get fun s => ?_
  refine (acts_unwrapResult _ _ _).after fun unwrapped => ?_
  split
  next => exact hreport _ _
  next result =>
    split
    next => exact hreport _ _
    next => exact .throw _
    next inner =>
      refine .get fun s => ?_
      split
      next =>
        split
        next salts =>
          split
          next =>
            have := acts_handleFutureSalts (w := w) { message with body := result } fresh
            exact this.mono (Nat.zero_le _) (Nat.le_refl _)
          next => exact hgiveUp _
        next => exact hgiveUp _
      next =>
        split
        next =>
          split
          next => exact hother rfl
          next => exact hother rfl
          next => exact .throw _
        next =>
          cases fresh with
          | false => exact hother rfl
          | true =>
            exact ((acts_storeOwnUpdates _ _).bind fun _ => acts_emit_other rfl).mono
              (Nat.le_refl 1) (Nat.zero_le 1)

theorem acts_handleAck (message : ManualTl.Message) : Acts i 0 0 (handleAck message) :=
  (Acts.lift _).after fun _ => .pure _

theorem acts_handlePong (message : ManualTl.Message) : Acts message.msgId 0 0 (handlePong message) :=
  (Acts.lift _).after fun _ => acts_emit_other rfl

theorem acts_handleNewSessionCreated (message : ManualTl.Message) :
    Acts message.msgId 0 1 (handleNewSessionCreated message) :=
  (Acts.lift _).after fun _ => acts_change (fun _ => ⟨rfl, rfl, rfl, rfl⟩) fun _ => rfl

theorem acts_handleUpdate (message : ManualTl.Message) : Acts message.msgId 1 0 (handleUpdate message) := by
  refine .get fun s => ?_
  split
  next => exact acts_emit (.update message.body)
  next => exact .pure _

theorem lastMsgId_correctTimeOffset (m : Encrypted) (msgId : Int64) :
    (m.correctTimeOffset w msgId).lastMsgId = m.lastMsgId ∨
      (m.correctTimeOffset w msgId).lastMsgId = 0 := by
  unfold Encrypted.correctTimeOffset
  simp only
  split
  next => exact Or.inr rfl
  next => exact Or.inl rfl

theorem acts_correctSession (message : ManualTl.Message) (bad : BadMsgNotification) :
    Acts message.msgId 0 1 (correctSession w message bad) := by
  unfold correctSession
  split
  next => exact acts_change (fun _ => ⟨rfl, rfl, rfl, rfl⟩) fun _ => rfl
  next =>
    refine .get fun s => ?_
    split
    next =>
      refine acts_correct (fun m => ⟨rfl, rfl, rfl, rfl⟩) fun m => ?_
      exact lastMsgId_correctTimeOffset m message.msgId
    next =>
      split
      next =>
        split
        next => exact acts_correct (fun _ => ⟨rfl, rfl, rfl, rfl⟩) fun _ => Or.inl rfl
        next => exact .fail _
      next =>
        split
        next => exact acts_correct (fun _ => ⟨rfl, rfl, rfl, rfl⟩) fun _ => Or.inl rfl
        next => exact .pure _

theorem acts_handleBadNotification (message : ManualTl.Message) (fresh : Bool) :
    Acts message.msgId 0 (once fresh) (handleBadNotification w message fresh) := by
  refine (Acts.lift _).after fun bad => (acts_failSaltRequest _).after fun internal => ?_
  have hrest : Acts message.msgId 0 (once fresh)
      (if fresh then correctSession w message bad else pure ()) := by
    cases fresh with
    | false => exact .pure _
    | true => exact acts_correctSession message bad
  cases internal with
  | true => exact hrest
  | false => exact (acts_emit_other rfl).after fun _ => hrest

theorem acts_note {visit : Visit} (h : visit.ids = []) : Acts i 0 0 (note visit) :=
  Moves.modify fun s => ⟨rfl, rfl, rfl, rfl, (Effect.refl i 0 0 s).items,
    (Effect.refl i 0 0 s).changes, ⟨[visit], rfl, by simp [h]⟩, fun hw => hw,
    .same rfl rfl rfl rfl, Or.inl rfl, (Effect.refl i 0 0 s).corrections⟩

theorem Effect.of_queued {visit : Visit} {ackId : Int64} (h : visit.ids = [ackId]) (s : Inbound) :
    Effect i 0 0 s { s with mtp := queued w ackId s.mtp, visits := s.visits ++ [visit] } := by
  unfold queued
  split
  next hnil =>
    exact ⟨rfl, rfl, rfl, rfl, (Effect.refl i 0 0 s).items, (Effect.refl i 0 0 s).changes,
      ⟨[visit], rfl, by simp [h, hnil]⟩, fun _ _ => nofun, .same rfl rfl rfl rfl,
      Or.inl rfl, (Effect.refl i 0 0 s).corrections⟩
  next hne =>
    exact ⟨rfl, rfl, rfl, rfl, (Effect.refl i 0 0 s).items, (Effect.refl i 0 0 s).changes,
      ⟨[visit], rfl, by simp [h]⟩, fun hw _ => hw hne, .same rfl rfl rfl rfl,
      Or.inl rfl, (Effect.refl i 0 0 s).corrections⟩

/-- An acknowledgement is queued for what is noted. -/
theorem acts_queueAck {ackId : Int64} {visit : Visit} (h : visit.ids = [ackId]) :
    Acts i 0 0 (do queueAck w ackId; note visit) := by
  intro s
  unfold queueAck
  by_cases hfull : s.mtp.pendingAck.length ≥ 65536
  · simp only [bind, EStateM.bind, get_eq, hfull, ↓reduceIte]
    exact .refl i 0 0 s
  · simp only [bind, EStateM.bind, get_eq, hfull, ↓reduceIte]
    exact .of_queued h s

theorem acts_acknowledge (message : ManualTl.Message) : Acts i 0 0 (acknowledge w message) := by
  unfold acknowledge
  split
  next hack =>
    refine acts_queueAck ?_
    exact if_pos hack
  next hack =>
    refine acts_note ?_
    exact if_neg hack

theorem acts_handleDetailedInfo (message : ManualTl.Message) : Acts i 0 0 (handleDetailedInfo w message) :=
  (Acts.lift _).after fun _ => acts_queueAck rfl

/-- A message that is new may tell one update and make one change, and one that is not may do
neither. -/
theorem acts_handle {container : ManualTl.Message → Nat → Act Unit} {message : ManualTl.Message} {depth : Nat}
    {fresh : Bool} {constructor : UInt32} (hkind : fresh = true ∨ retires constructor = true)
    (hcontainer : constructor = Encrypted.messageContainer →
      Acts message.msgId (once fresh) (once fresh) (container message depth)) :
    Acts message.msgId (once fresh) (once fresh)
      (handle z w container message depth fresh constructor) := by
  have hnothing : ∀ {m : Act Unit}, Acts message.msgId 0 0 m →
      Acts message.msgId (once fresh) (once fresh) m :=
    fun h => h.mono (Nat.zero_le _) (Nat.zero_le _)
  have hnew : retires constructor = false → once fresh = 1 := by
    intro hret
    rcases hkind with hfresh | hkind
    · rw [hfresh]
      rfl
    · rw [hret] at hkind
      cases hkind
  unfold handle
  refine .ite (fun _ => acts_handleRpcResult message depth fresh) fun hresult => ?_
  refine .ite (fun _ => hnothing (acts_handleAck message)) fun _ => ?_
  refine .ite (fun _ => ?_) fun hbad => ?_
  · exact (acts_handleBadNotification message fresh).mono (Nat.zero_le _) (Nat.le_refl _)
  refine .ite (fun _ => hnothing (acts_handleDetailedInfo message)) fun _ => ?_
  refine .ite (fun _ => .fail _) fun _ => ?_
  refine .ite (fun _ => ?_) fun hsalts => ?_
  · exact (acts_handleFutureSalts message fresh).mono (Nat.zero_le _) (Nat.le_refl _)
  refine .ite (fun _ => hnothing (acts_handlePong message)) fun hpong => ?_
  refine .ite (fun h => ?_) fun _ => ?_
  · rw [hnew (by rw [h]; decide)]
    exact (acts_handleNewSessionCreated message).mono (Nat.zero_le _) (Nat.le_refl _)
  refine .ite hcontainer fun hcontainer => ?_
  refine .ite (fun _ => .fail _) fun _ => ?_
  refine .ite (fun _ => .pure _) fun _ => ?_
  have hret : retires constructor = false := by
    rw [not_or] at hbad
    simp [retires, hresult, hbad.1, hbad.2, hsalts, hpong, hcontainer]
  rw [hnew hret]
  exact (acts_handleUpdate message).mono (Nat.le_refl _) (Nat.zero_le _)

end Inbound

end Grammers
