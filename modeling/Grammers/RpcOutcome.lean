import Grammers.InboundEffect
import Grammers.TlCode

namespace Grammers

open Checked CursorReader StateError

namespace Tl

theorem safe_deserializeI32 : Safe deserializeI32 :=
  (safe_readExact 4).bind fun _ => Bounded.pure _

theorem safe_deserializeString : Safe deserializeString :=
  safe_readBytes.bind fun _ => Bounded.pure _

end Tl

theorem safe_boxed {α : Type} {variants : List (UInt32 × Tl.Read α)}
    (h : ∀ v ∈ variants, Tl.Safe v.2) : Tl.Safe (boxed variants) := by
  refine Tl.safe_deserializeU32.bind fun id => ?_
  split
  next hfound => exact h _ (List.mem_of_find?_eq_some hfound)
  next => exact Bounded.throw (by simp)

theorem safe_readRpcError : Tl.Safe readRpcError :=
  safe_boxed fun v hv => by
    obtain rfl := List.mem_singleton.mp hv
    exact Tl.safe_deserializeI32.bind fun _ => Tl.safe_deserializeString.bind fun _ => Bounded.pure _

theorem safe_parse {α : Type} {r : Tl.Read α} (h : Tl.Safe r) {c : Cursor Nat}
    (hc : c.pos ≤ c.buf.length) :
    Checked.Safe (parse r c) fun read => read.2.pos ≤ read.2.buf.length := by
  unfold parse
  split
  next hr =>
    obtain ⟨hbuf, -, hend, -⟩ := h.ok _ _ _ hc hr
    exact .ok (by rw [hbuf]; exact hend)
  next => exact .error _
  next hr => exact absurd rfl (h.error _ _ _ hc hr).1

theorem safe_fromBytes {α : Type} {r : Tl.Read α} (h : Tl.Safe r) (bytes : Bytes) :
    Checked.Safe (fromBytes r bytes) fun _ => True := by
  have hparse := safe_parse h (c := Tl.fromSlice bytes) (Nat.zero_le _)
  unfold fromBytes
  cases hr : parse r (Tl.fromSlice bytes) with
  | ok v => trivial
  | error e =>
    rw [hr] at hparse
    cases e with
    | panic => exact hparse.elim
    | error e => trivial

theorem safe_decompressFromBytesLimited (inflate : Bytes → Inflated) (bytes : Bytes)
    (limit : Nat) :
    Checked.Safe (decompressFromBytesLimited inflate bytes limit) fun _ => True := by
  refine (safe_parse Tl.safe_deserializeU32 (Nat.zero_le _)).bind fun r hr => ?_
  refine .ite (fun _ => .error _) fun _ => ?_
  refine (safe_parse Tl.safe_readBytes hr).bind fun packed _ => ?_
  refine .ite (fun _ => .error _) fun _ => ?_
  cases decompressPayloadLimited inflate packed.1 limit with
  | ok body => trivial
  | error e => trivial

namespace Inbound

/-- The session and the results stay as they are. -/
structure Quiet (s s' : Inbound) : Prop where
  mtp : s'.mtp = s.mtp
  deserialization : s'.deserialization = s.deserialization

/-- An action that may fail, but does not panic, and says nothing. -/
def Reports {α : Type} (m : Act α) : Prop :=
  ∀ s, ∃ s', Quiet s s' ∧ ((∃ v, m s = .ok v s') ∨ ∃ e, m s = .error (.error e) s')

theorem Reports.bind {α β : Type} {m : Act α} {k : α → Act β} (h : Reports m)
    (h' : ∀ a, Reports (k a)) : Reports (m >>= k) := by
  intro s
  obtain ⟨s₁, hq, ⟨v, hv⟩ | ⟨e, he⟩⟩ := h s
  · obtain ⟨s₂, hq', hend⟩ := h' v s₁
    rw [bind_of_ok hv]
    exact ⟨s₂, ⟨hq'.mtp.trans hq.mtp, hq'.deserialization.trans hq.deserialization⟩, hend⟩
  · exact ⟨s₁, hq, Or.inr ⟨e, bind_eq_error.mpr (Or.inl he)⟩⟩

theorem Reports.fail {α : Type} (e : DeserializeError) : Reports (Inbound.fail e : Act α) :=
  fun s => ⟨s, ⟨rfl, rfl⟩, Or.inr ⟨e, rfl⟩⟩

theorem Reports.get {α : Type} {k : Inbound → Act α} (h : ∀ s, Reports (k s)) :
    Reports (MonadState.get >>= k) :=
  fun s => h s s

theorem Reports.spend (item : Spent) (f : DecodeBudget → DecodeBudget) : Reports (spend item f) :=
  fun s => ⟨{ s with budget := f s.budget, spent := s.spent ++ [item] }, ⟨rfl, rfl⟩,
    Or.inl ⟨(), rfl⟩⟩

theorem reports_visit (depth : Nat) : Reports (visit depth) := by
  refine .get fun s => ?_
  split
  · exact .fail _
  · exact .spend _ _

variable (inflate : Bytes → Inflated)

theorem reports_decompress (bytes : Bytes) (depth : Nat) :
    Reports (decompress inflate bytes depth) := by
  refine .get fun s => ?_
  split
  · exact .fail _
  · have hsafe := safe_decompressFromBytesLimited inflate bytes
      (min s.budget.limits.gzipOutput s.budget.remaining)
    simp only
    split
    next => exact (Reports.spend _ _).bind fun _ s => ⟨s, ⟨rfl, rfl⟩, Or.inl ⟨_, rfl⟩⟩
    next e he =>
      cases e with
      | panic => exact absurd he hsafe.ne_panic
      | error e => exact (Reports.spend _ _).bind fun _ => .fail e

theorem Reports.attempt {α : Type} {m : Act α} (h : Reports m) (s : Inbound) :
    ∃ r s', attempt m s = .ok r s' ∧ Quiet s s' := by
  obtain ⟨s', hq, ⟨v, hv⟩ | ⟨e, he⟩⟩ := h s
  · exact ⟨.ok v, s', by simp only [Inbound.attempt, hv], hq⟩
  · exact ⟨.error e, s', by simp only [Inbound.attempt, he], hq⟩

/-- A result is unpacked to its content or to the error that its caller is told. -/
theorem unwrapResult_ok (more : Nat) : ∀ (result : Bytes) (depth : Nat) (s : Inbound),
    ∃ r s', unwrapResult inflate more result depth s = .ok r s' ∧ Quiet s s' := by
  induction more with
  | zero =>
    intro result depth s
    unfold unwrapResult
    split
    · exact ⟨_, s, rfl, rfl, rfl⟩
    · exact ⟨_, s, rfl, rfl, rfl⟩
  | succ more ih =>
    intro result depth s
    unfold unwrapResult
    split
    · obtain ⟨r, s₁, hr, hq⟩ := ((reports_visit (depth + 1)).bind
        fun _ => reports_decompress inflate result (depth + 1)).attempt s
      simp only
      rw [bind_of_ok hr]
      cases r with
      | error e => exact ⟨_, s₁, rfl, hq⟩
      | ok body =>
        obtain ⟨r, s₂, hr, hq'⟩ := ih body (depth + 1) s₁
        exact ⟨r, s₂, hr, hq'.mtp.trans hq.mtp, hq'.deserialization.trans hq.deserialization⟩
    · exact ⟨_, s, rfl, rfl, rfl⟩

variable {s : Inbound} {msgId : MsgId} {serverId : Int64}

/-- What a request of a caller is told: its outcome, after the updates that came in it. -/
inductive Answer (serverId : Int64) (msgId : MsgId) (updates : Bool) :
    List (Int64 × Deserialization) → Prop where
  | result (body : Bytes) : Answer serverId msgId updates [(serverId, .rpcResult msgId body)]
  | updates (body : Bytes) : updates = true → Answer serverId msgId updates
      [(serverId, .ownUpdate msgId body), (serverId, .rpcResult msgId body)]
  | error (error : TlRpcError) : Answer serverId msgId updates [(serverId, .rpcError msgId error)]
  | failure (error : DeserializeError) :
      Answer serverId msgId updates [(serverId, .failure msgId error)]

/-- One outcome for the caller, or none where the request was the session's own. -/
structure Settles (serverId : Int64) (msgId : MsgId) (updates : Bool) (s s' : Inbound) : Prop where
  internal : s.mtp.saltRequestMsgId = some msgId →
    s'.deserialization = s.deserialization ∧ s'.mtp.saltRequestMsgId = none
  caller : s.mtp.saltRequestMsgId ≠ some msgId → s'.mtp = s.mtp ∧
    ∃ items, Answer serverId msgId updates items ∧ s'.deserialization = s.deserialization ++ items

theorem Settles.of_quiet {updates : Bool} {s s₁ s' : Inbound} (hq : Quiet s s₁)
    (h : Settles serverId msgId updates s₁ s') : Settles serverId msgId updates s s' := by
  constructor
  · intro hinternal
    rw [← hq.deserialization]
    exact h.internal (by rwa [hq.mtp])
  · intro hcaller
    rw [← hq.deserialization, ← hq.mtp]
    exact h.caller (by rwa [hq.mtp])

theorem failSaltRequest_internal (h : s.mtp.saltRequestMsgId = some msgId) :
    failSaltRequest msgId s = .ok true
      { s with mtp := countSaltFailure { s.mtp with saltRequestMsgId := none } } := by
  unfold failSaltRequest
  show (if s.mtp.saltRequestMsgId ≠ some msgId then _ else _ : Act Bool) s = _
  rw [if_neg (not_not.mpr h)]
  rfl

theorem failSaltRequest_caller (h : s.mtp.saltRequestMsgId ≠ some msgId) :
    failSaltRequest msgId s = .ok false s := by
  unfold failSaltRequest
  show (if s.mtp.saltRequestMsgId ≠ some msgId then _ else _ : Act Bool) s = _
  rw [if_pos h]
  rfl

theorem reportFailure_settles (updates : Bool) (error : DeserializeError) (s : Inbound) :
    ∃ s', reportFailure serverId msgId error s = .ok () s' ∧
      Settles serverId msgId updates s s' := by
  unfold reportFailure
  by_cases h : s.mtp.saltRequestMsgId = some msgId
  · rw [bind_of_ok (failSaltRequest_internal h)]
    exact ⟨_, rfl, fun _ => ⟨rfl, rfl⟩, fun hne => absurd h hne⟩
  · rw [bind_of_ok (failSaltRequest_caller h)]
    exact ⟨_, rfl, fun heq => absurd heq h, fun _ => ⟨rfl, _, .failure error, rfl⟩⟩

theorem failSaltRequest_settles (updates : Bool) (h : s.mtp.saltRequestMsgId = some msgId) :
    ∃ s', (do let _ ← failSaltRequest msgId; pure () : Act Unit) s = .ok () s' ∧
      Settles serverId msgId updates s s' := by
  rw [bind_of_ok (failSaltRequest_internal h)]
  exact ⟨_, rfl, fun _ => ⟨rfl, rfl⟩, fun hne => absurd h hne⟩

variable (w : World)

/-- Salts that the session asked for are taken, and nobody else is told. -/
theorem handleFutureSalts_settles (updates : Bool) {message : ManualTl.Message} {salts : FutureSalts}
    (fresh : Bool) (hread : fromBytes readFutureSalts message.body = .ok salts)
    (hvalid : validSalts salts = true) (h : s.mtp.saltRequestMsgId = some salts.reqMsgId) :
    ∃ s', handleFutureSalts w message fresh s = .ok () s' ∧
      Settles serverId salts.reqMsgId updates s s' := by
  have hlift : lift (fromBytes readFutureSalts message.body) s = .ok salts s := by
    simp only [lift, hread]
  unfold handleFutureSalts
  rw [bind_of_ok hlift, if_neg (by rw [hvalid]; nofun)]
  simp only [bind, EStateM.bind, get_eq, h, ↓reduceIte]
  by_cases hnone : (!fresh) = true ∨ salts.salts = []
  · simp only [hnone, ↓reduceIte]
    exact ⟨_, rfl, fun _ => ⟨rfl, rfl⟩, fun hne => absurd h hne⟩
  · simp only [hnone, ↓reduceIte]
    exact ⟨_, rfl, fun _ => ⟨rfl, rfl⟩, fun hne => absurd h hne⟩

theorem storeOwnUpdates_ok (body : Bytes) (s : Inbound) :
    ∃ s', storeOwnUpdates serverId msgId body s = .ok () s' ∧ s'.mtp = s.mtp ∧
      (s'.deserialization = s.deserialization ∨ s.mtp.receiveUpdates = true ∧
        s'.deserialization = s.deserialization ++ [(serverId, .ownUpdate msgId body)]) := by
  unfold storeOwnUpdates
  simp only [bind, EStateM.bind, get_eq]
  split
  next hreceive =>
    cases constructorId body with
    | ok id =>
      simp only
      split
      next => exact ⟨_, rfl, rfl, Or.inr ⟨hreceive, rfl⟩⟩
      next => exact ⟨_, rfl, rfl, Or.inl rfl⟩
    | error => exact ⟨_, rfl, rfl, Or.inl rfl⟩
  next => exact ⟨_, rfl, rfl, Or.inl rfl⟩

/-- The result of a request of a caller, whatever it is. -/
theorem result_settles (emitOwnUpdates : Bool) (body : Bytes)
    (h : s.mtp.saltRequestMsgId ≠ some msgId) :
    ∃ s', (do
        if emitOwnUpdates then storeOwnUpdates serverId msgId body
        emit serverId (.rpcResult msgId body) : Act Unit) s = .ok () s' ∧
      Settles serverId msgId (emitOwnUpdates && s.mtp.receiveUpdates) s s' := by
  cases emitOwnUpdates with
  | false => exact ⟨_, rfl, fun heq => absurd heq h, fun _ => ⟨rfl, _, .result body, rfl⟩⟩
  | true =>
    obtain ⟨s₁, hstore, hmtp, hitems⟩ := @storeOwnUpdates_ok msgId serverId body s
    simp only [↓reduceIte]
    rw [bind_of_ok hstore]
    refine ⟨_, rfl, fun heq => absurd heq h, fun _ => ⟨hmtp, ?_⟩⟩
    rcases hitems with hitems | ⟨hreceive, hitems⟩
    · exact ⟨_, .result body, by simp [hitems]⟩
    · exact ⟨_, .updates body (by simp [hreceive]), by simp [hitems]⟩

/-- A result whose request can be read has exactly one outcome, and never fails its packet. -/
theorem rpc_result_has_one_outcome (inflate : Bytes → Inflated) (w : World)
    (message : ManualTl.Message) (depth : Nat) (emitOwnUpdates : Bool) (s : Inbound)
    (msgId : MsgId) (result : Bytes) (h : rpcResultParts message.body = .ok (msgId, result)) :
    ∃ s', handleRpcResult inflate w message depth emitOwnUpdates s = .ok () s' ∧
      Settles message.msgId msgId (emitOwnUpdates && s.mtp.receiveUpdates) s s' := by
  have hparts : lift (rpcResultParts message.body) s = .ok (msgId, result) s := by
    simp only [lift, h]
  obtain ⟨r, s₁, hunwrap, hq⟩ :=
    unwrapResult_ok inflate (s.budget.limits.depth - depth) result depth s
  rw [← hq.mtp]
  suffices hrest : ∃ s', handleRpcResult inflate w message depth emitOwnUpdates s = .ok () s' ∧
      Settles message.msgId msgId (emitOwnUpdates && s₁.mtp.receiveUpdates) s₁ s' by
    obtain ⟨s', hs', hsettles⟩ := hrest
    exact ⟨s', hs', .of_quiet hq hsettles⟩
  unfold handleRpcResult
  rw [bind_of_ok hparts]
  show ∃ s', (unwrapResult inflate (s.budget.limits.depth - depth) result depth >>= _) s = _ ∧ _
  rw [bind_of_ok hunwrap]
  cases r with
  | error e => exact reportFailure_settles _ e s₁
  | ok body =>
    have hsafe := safe_fromBytes Tl.safe_deserializeU32 body
    change Checked.Safe (constructorId body) _ at hsafe
    simp only
    cases hinner : constructorId body with
    | error fault =>
      rw [hinner] at hsafe
      cases fault with
      | panic => exact hsafe.elim
      | error e => exact reportFailure_settles _ e s₁
    | ok inner =>
      show ∃ s', (if s₁.mtp.saltRequestMsgId = some msgId then _ else _ : Act Unit) s₁ = _ ∧ _
      by_cases hinternal : s₁.mtp.saltRequestMsgId = some msgId
      · rw [if_pos hinternal]
        cases hsalts : fromBytes readFutureSalts body with
        | ok salts =>
          simp only
          by_cases hvalid : salts.reqMsgId = msgId ∧ validSalts salts = true
          · rw [if_pos hvalid]
            obtain ⟨rfl, hvalid⟩ := hvalid
            exact handleFutureSalts_settles w _ emitOwnUpdates hsalts hvalid hinternal
          · rw [if_neg hvalid]
            exact failSaltRequest_settles _ hinternal
        | error => exact failSaltRequest_settles _ hinternal
      · rw [if_neg hinternal]
        by_cases herror : inner = rpcErrorId
        · rw [if_pos herror]
          have hsafe := safe_fromBytes safe_readRpcError body
          cases hread : fromBytes readRpcError body with
          | ok error =>
            exact ⟨_, rfl, fun heq => absurd heq hinternal, fun _ => ⟨rfl, _, .error error, rfl⟩⟩
          | error fault =>
            rw [hread] at hsafe
            cases fault with
            | panic => exact hsafe.elim
            | error e =>
              exact ⟨_, rfl, fun heq => absurd heq hinternal, fun _ => ⟨rfl, _, .failure e, rfl⟩⟩
        · rw [if_neg herror]
          exact result_settles emitOwnUpdates body hinternal

/-- A result that ends after its request. -/
theorem rpc_result_has_one_outcome_truncated :
    let s : Inbound := (Builder.finish ⟨⟨2 ^ 24, 2 ^ 25, 8, 2 ^ 12⟩, 0, 0, none, true, 1⟩
      ⟨⟨List.replicate 256 0, List.length_replicate⟩,
        ⟨List.replicate 8 0, List.length_replicate⟩⟩ 0).beginPacket
    let w : World := ⟨id, fun _ => (0, 0), fun _ => ⟨List.replicate 32 0, List.length_replicate⟩⟩
    let body := Tl.serializeU32 rpcResultId ++ Tl.serializeI64 4
    ∃ s', handleRpcResult (fun _ => ⟨[], none⟩) w ⟨5, 1, body⟩ 0 true s = .ok () s' ∧
      Settles 5 4 true s s' := by
  intro s w body
  exact rpc_result_has_one_outcome (fun _ => ⟨[], none⟩) w ⟨5, 1, body⟩ 0 true s 4 [] (by decide)

end Inbound

end Grammers
