import Grammers.RpcOutcome

namespace Grammers

open Checked CursorReader StateError

namespace Tl

theorem safe_deserializeI64 : Safe deserializeI64 :=
  (safe_readExact 8).bind fun _ => Bounded.pure _

end Tl

theorem safe_readMsgsAck : Tl.Safe readMsgsAck :=
  safe_boxed fun v hv => by
    obtain rfl := List.mem_singleton.mp hv
    exact Tl.safe_deserializeVec Tl.safe_deserializeI64

theorem safe_readBadMsgNotification : Tl.Safe readBadMsgNotification :=
  safe_boxed fun v hv => by
    rcases List.mem_cons.mp hv with rfl | hv
    · exact Tl.safe_deserializeI64.bind fun _ => Tl.safe_deserializeI32.bind fun _ =>
        Tl.safe_deserializeI32.bind fun _ => Bounded.pure _
    · obtain rfl := List.mem_singleton.mp hv
      exact Tl.safe_deserializeI64.bind fun _ => Tl.safe_deserializeI32.bind fun _ =>
        Tl.safe_deserializeI32.bind fun _ => Tl.safe_deserializeI64.bind fun _ => Bounded.pure _

theorem safe_readMsgDetailedInfo : Tl.Safe readMsgDetailedInfo :=
  safe_boxed fun v hv => by
    rcases List.mem_cons.mp hv with rfl | hv
    · exact Tl.safe_deserializeI64.bind fun _ => Tl.safe_deserializeI64.bind fun _ =>
        Tl.safe_deserializeI32.bind fun _ => Tl.safe_deserializeI32.bind fun _ => Bounded.pure _
    · obtain rfl := List.mem_singleton.mp hv
      exact Tl.safe_deserializeI64.bind fun _ => Tl.safe_deserializeI32.bind fun _ =>
        Tl.safe_deserializeI32.bind fun _ => Bounded.pure _

theorem safe_readFutureSalts : Tl.Safe readFutureSalts :=
  safe_boxed fun v hv => by
    obtain rfl := List.mem_singleton.mp hv
    refine Tl.safe_deserializeI64.bind fun _ => Tl.safe_deserializeI32.bind fun _ => ?_
    refine (Tl.safe_deserializeVector ?_).bind fun _ => Bounded.pure _
    exact Tl.safe_deserializeI32.bind fun _ => Tl.safe_deserializeI32.bind fun _ =>
      Tl.safe_deserializeI64.bind fun _ => Bounded.pure _

theorem safe_readPong : Tl.Safe readPong :=
  safe_boxed fun v hv => by
    obtain rfl := List.mem_singleton.mp hv
    exact Tl.safe_deserializeI64.bind fun _ => Tl.safe_deserializeI64.bind fun _ => Bounded.pure _

theorem safe_readNewSession : Tl.Safe readNewSession :=
  safe_boxed fun v hv => by
    obtain rfl := List.mem_singleton.mp hv
    exact Tl.safe_deserializeI64.bind fun _ => Tl.safe_deserializeI64.bind fun _ =>
      Tl.safe_deserializeI64

theorem safe_message : Tl.Safe ManualTl.Message.deserialize := by
  refine Tl.safe_deserializeI64.bind fun msgId => Tl.safe_deserializeI32.bind fun seqNo =>
    Tl.safe_deserializeI32.bind fun len => ?_
  split
  · exact Bounded.throw (by simp [Tl.eof])
  · split
    · exact Bounded.throw (by simp [Tl.eof])
    · exact (Tl.safe_readSlice _).bind fun _ => Bounded.pure _

theorem safe_constructorId (body : Bytes) : Checked.Safe (constructorId body) fun _ => True :=
  safe_fromBytes Tl.safe_deserializeU32 body

theorem safe_rpcResultParts (body : Bytes) : Checked.Safe (rpcResultParts body) fun _ => True := by
  refine (safe_parse Tl.safe_deserializeU32 (Nat.zero_le _)).bind fun r hr => ?_
  refine .ite (fun _ => .error _) fun _ => ?_
  exact (safe_parse Tl.safe_deserializeI64 hr).bind fun _ _ => trivial

theorem safe_checkMessages (parent : Int64) (n : Nat) :
    ∀ c : Cursor Nat, c.pos ≤ c.buf.length → Checked.Safe (checkMessages parent n c) fun _ => True := by
  induction n with
  | zero =>
    intro c hc
    trivial
  | succ n ih =>
    intro c hc
    refine (safe_parse safe_message hc).bind fun r hr => ?_
    refine .ite (fun _ => .error _) fun _ => ?_
    exact (ih r.2 hr).bind fun _ _ => trivial

theorem safe_borrowedMessagesValidated (bytes : Bytes) (parent : Int64) :
    Checked.Safe (borrowedMessagesValidated bytes parent) fun _ => True := by
  refine (safe_parse Tl.safe_deserializeU32 (Nat.zero_le _)).bind fun r hr => ?_
  refine .ite (fun _ => .error _) fun _ => ?_
  refine (safe_parse Tl.safe_deserializeI32 hr).bind fun count hcount => ?_
  refine .ite (fun _ => .error _) fun _ => ?_
  refine .ite (fun _ => .error _) fun _ => ?_
  refine (safe_checkMessages parent _ _ (Nat.zero_le _)).bind fun _ _ => ?_
  exact .ite (fun _ => .error _) fun _ => trivial

namespace Inbound

variable {z : Bytes → Inflated} {w : World}

/-- An action that does not panic. -/
abbrev Total {α : Type} (m : Act α) : Prop := Avoids .panic m

theorem total_fail {α : Type} (e : DeserializeError) : Total (fail e : Act α) :=
  Avoids.throw (by simp)

theorem total_lift {α : Type} {x : Parsed α} {P : α → Prop} (h : Checked.Safe x P) : Total (lift x) := by
  intro s s' hr
  unfold lift at hr
  split at hr
  next => cases hr
  next e =>
    obtain ⟨rfl, -⟩ := EStateM.Result.error.inj hr
    exact h.ne_panic rfl

theorem Reports.total {α : Type} {m : Act α} (h : Reports m) : Total m := by
  intro s s' hr
  obtain ⟨s₁, -, ⟨v, hv⟩ | ⟨e, he⟩⟩ := h s
  · rw [hv] at hr
    cases hr
  · rw [he] at hr
    cases hr

theorem total_unwrap (more : Nat) :
    ∀ (message : ManualTl.Message) (depth : Nat), Total (unwrap z more message depth) := by
  induction more with
  | zero =>
    intro message depth
    exact total_fail _
  | succ more ih =>
    intro message depth
    refine (reports_visit depth).total.bind fun _ => ?_
    refine (total_lift (safe_constructorId _)).bind fun constructor => ?_
    split
    · exact .pure _
    · exact (reports_decompress z _ _).total.bind fun body => ih _ _

theorem total_unwrapResult (more : Nat) (result : Bytes) (depth : Nat) :
    Total (unwrapResult z more result depth) := by
  intro s s' hr
  obtain ⟨r, s₁, hok, -⟩ := unwrapResult_ok z more result depth s
  rw [hok] at hr
  cases hr

theorem total_queueAck (msgId : Int64) : Total (queueAck w msgId) := by
  refine .get fun s => ?_
  split
  · exact total_fail _
  · exact .modify _

theorem total_acknowledge (message : ManualTl.Message) : Total (acknowledge w message) := by
  unfold acknowledge
  split
  · exact (total_queueAck _).bind fun _ => .modify _
  · exact .modify _

theorem total_failSaltRequest (msgId : MsgId) : Total (failSaltRequest msgId) := by
  refine .get fun s => ?_
  split
  · exact .pure _
  · exact (Avoids.modify _).bind fun _ => .pure _

theorem total_storeOwnUpdates (serverId : Int64) (msgId : MsgId) (body : Bytes) :
    Total (storeOwnUpdates serverId msgId body) := by
  refine .get fun s => ?_
  split
  · split
    · split
      · exact .modify _
      · exact .pure _
    · exact .pure _
  · exact .pure _

theorem total_handleFutureSalts (message : ManualTl.Message) (fresh : Bool) :
    Total (handleFutureSalts w message fresh) := by
  refine (total_lift (safe_fromBytes safe_readFutureSalts _)).bind fun salts => ?_
  split
  · exact total_fail _
  · refine .get fun s => ?_
    simp only
    split
    · refine (Avoids.modify _).bind fun _ => ?_
      split
      · exact .modify _
      · exact .modify _
    · refine (Avoids.modify _).bind fun _ => ?_
      split
      · exact .pure _
      · exact .modify _

theorem total_reportFailure (serverId : Int64) (msgId : MsgId) (error : DeserializeError) :
    Total (reportFailure serverId msgId error) := by
  refine (total_failSaltRequest _).bind fun internal => ?_
  split
  · exact .pure _
  · exact .modify _

theorem total_handleRpcResult (message : ManualTl.Message) (depth : Nat) (fresh : Bool) :
    Total (handleRpcResult z w message depth fresh) := by
  refine (total_lift (safe_rpcResultParts _)).bind fun parts => ?_
  refine .get fun s => (total_unwrapResult _ _ _).bind fun unwrapped => ?_
  cases unwrapped with
  | error e => exact total_reportFailure _ _ _
  | ok result =>
    have hconstructor := safe_constructorId result
    simp only
    split
    next => exact total_reportFailure _ _ _
    next hpanic => exact absurd hpanic hconstructor.ne_panic
    next inner _ =>
      refine .get fun s => ?_
      split
      · split
        · split
          · exact total_handleFutureSalts _ _
          · exact (total_failSaltRequest _).bind fun _ => .pure _
        · exact (total_failSaltRequest _).bind fun _ => .pure _
      · split
        · split
          next => exact .modify _
          next => exact .modify _
          next hpanic => exact absurd hpanic (safe_fromBytes safe_readRpcError result).ne_panic
        · split
          · exact (total_storeOwnUpdates _ _ _).bind fun _ => .modify _
          · exact .modify _

theorem total_correctSession (message : ManualTl.Message) (bad : BadMsgNotification) :
    Total (correctSession w message bad) := by
  unfold correctSession
  split
  · exact .modify _
  · refine .get fun s => ?_
    split
    · exact .modify _
    · split
      · split
        · exact .modify _
        · exact total_fail _
      · split
        · exact .modify _
        · exact .pure _

theorem total_handleBadNotification (message : ManualTl.Message) (fresh : Bool) :
    Total (handleBadNotification w message fresh) := by
  refine (total_lift (safe_fromBytes safe_readBadMsgNotification _)).bind fun bad => ?_
  refine (total_failSaltRequest _).bind fun internal => ?_
  split
  · split
    · exact total_correctSession _ _
    · exact (Avoids.modify _).bind fun _ => total_correctSession _ _
  · split
    · exact .pure _
    · exact (Avoids.modify _).bind fun _ => .pure _

theorem total_handle {container : ManualTl.Message → Nat → Act Unit}
    (hcontainer : ∀ message depth, Total (container message depth)) (message : ManualTl.Message)
    (depth : Nat) (fresh : Bool) (constructor : UInt32) :
    Total (handle z w container message depth fresh constructor) := by
  unfold handle
  refine .ite (total_handleRpcResult _ _ _) (.ite ?_ (.ite (total_handleBadNotification _ _) ?_))
  · exact (total_lift (safe_fromBytes safe_readMsgsAck _)).bind fun _ => .pure _
  refine .ite ?_ (.ite (total_fail _) (.ite (total_handleFutureSalts _ _) (.ite ?_ (.ite ?_ ?_))))
  · exact (total_lift (safe_fromBytes safe_readMsgDetailedInfo _)).bind fun _ =>
      (total_queueAck _).bind fun _ => .modify _
  · exact (total_lift (safe_fromBytes safe_readPong _)).bind fun _ => .modify _
  · exact (total_lift (safe_fromBytes safe_readNewSession _)).bind fun _ => .modify _
  refine .ite (hcontainer _ _) (.ite (total_fail _) (.ite (.pure _) (.get fun s => ?_)))
  split
  · exact .modify _
  · exact .pure _

theorem total_processMessage {container : ManualTl.Message → Nat → Act Unit}
    (hcontainer : ∀ message depth, Total (container message depth)) (message : ManualTl.Message)
    (depth : Nat) : Total (processMessage z w container message depth) := by
  refine .get fun s => ?_
  split
  · exact total_acknowledge _
  · refine .get fun s => ?_
    refine (total_unwrap _ _ _).bind fun unwrapped => (total_acknowledge _).bind fun _ => ?_
    refine (total_lift (safe_constructorId _)).bind fun constructor => ?_
    split
    · refine (total_handle hcontainer _ _ _ _).bind fun _ => ?_
      split
      · exact .modify _
      · exact .pure _
    · exact .pure _

theorem total_processAll (depth : Nat) (messages : List ManualTl.Message) :
    Total (processAll z w depth messages) := by
  induction messages with
  | nil => exact .pure _
  | cons inner messages ih =>
    exact (total_processMessage (fun _ _ => total_fail _) inner depth).bind fun _ => ih

theorem total_handleContainer (message : ManualTl.Message) (depth : Nat) :
    Total (handleContainer z w message depth) := by
  refine (total_lift (safe_borrowedMessagesValidated _ _)).bind fun messages => ?_
  exact (Avoids.modify _).bind fun _ => total_processAll _ _

theorem total_processBounded (message : ManualTl.Message) : Total (processBounded z w message) := by
  have hheader : Checked.Safe (validateHeader message) fun _ => True :=
    .ite (fun _ => .error _) fun _ => trivial
  exact (total_lift hheader).bind fun _ => total_processMessage total_handleContainer _ _

end Inbound

namespace Encrypted

theorem safe_readPlaintext (s : Encrypted) (plaintext : Bytes) :
    Checked.Safe (s.readPlaintext plaintext) fun _ => True := by
  refine (safe_parse Tl.safe_deserializeI64 (Nat.zero_le _)).bind fun salt hsalt => ?_
  refine (safe_parse Tl.safe_deserializeI64 hsalt).bind fun session hsession => ?_
  refine .ite (fun _ => .error _) fun _ => ?_
  refine (safe_parse safe_message hsession).bind fun message _ => ?_
  exact .ite (fun _ => .error _) fun _ => trivial

/-- Whatever a packet contains, processing it ends with results or with an error. -/
theorem processPlaintext_ne_panic (z : Bytes → Inflated) (w : World) (s : Encrypted) (plaintext : Bytes) :
    (s.processPlaintext z w plaintext).result ≠ .error .panic := by
  unfold processPlaintext
  split
  next e he =>
    rintro hpanic
    obtain rfl := Except.error.inj hpanic
    exact (s.safe_readPlaintext plaintext).ne_panic he
  next message _ =>
    split
    next e s' hr =>
      rintro hpanic
      obtain rfl := Except.error.inj hpanic
      exact Inbound.total_processBounded message _ _ hr
    next => nofun

end Encrypted

end Grammers
