import Grammers.Packet

namespace Grammers

open Checked StateError

theorem Inbound.lastMsgId_coarse :
    Inbound.Coarse fun s s' => s'.mtp.lastMsgId = s.mtp.lastMsgId ∨ s'.mtp.lastMsgId = 0 where
  trans := by
    intro s s' s'' h h'
    rcases h' with h' | h'
    · rw [h']
      exact h
    · exact Or.inr h'
  effect := Inbound.Effect.lastMsgId
  remembered := by
    intro id s
    rcases Inbound.remembered_eq id s with ⟨ids, h⟩ | h
    · rw [h]
      exact Or.inl rfl
    · rw [h]
      exact Or.inl rfl
  opened := fun s => Or.inl rfl

/-- What a packet that corrects neither the clock nor the sequence leaves of them. -/
def Inbound.Corrects (s s' : Inbound) : Prop :=
  ∃ more, s'.corrections = s.corrections ++ more ∧ (more = [] → s'.mtp.clock = s.mtp.clock)

theorem Inbound.corrects_coarse : Inbound.Coarse Inbound.Corrects where
  trans := by
    rintro s s' s'' ⟨more, h, hclock⟩ ⟨more', h', hclock'⟩
    refine ⟨more ++ more', by rw [h', h, List.append_assoc], fun hnil => ?_⟩
    obtain ⟨hnil, hnil'⟩ := List.append_eq_nil_iff.mp hnil
    rw [hclock' hnil', hclock hnil]
  effect := Inbound.Effect.corrections
  remembered := by
    intro id s
    rcases Inbound.remembered_eq id s with ⟨ids, h⟩ | h
    · rw [h]
      exact ⟨[], by simp, fun _ => rfl⟩
    · rw [h]
      exact ⟨[], by simp, fun _ => rfl⟩
  opened := fun s => ⟨[], by simp, fun _ => rfl⟩

/-- The messages of the server that corrected the clock or the sequence. -/
def MtpEvent.corrections (event : MtpEvent) : List Int64 :=
  event.outcomes.flatMap PacketResult.corrections

namespace Encrypted

variable {z : Bytes → Inflated} {g : Bytes → Bytes} {c : Crypto} {w : World}
  {s s' : Encrypted} {buffer buffer' : Bytes}

/-- The stamp of the container that more than one message are put in. -/
def containerStamp (w : World) (s : Encrypted) : List Stamp :=
  if s.msgCount ≤ 1 then [] else [⟨(s.getNewMsgId w).1, s.sequence, false⟩]

/-- The stamps that a call gives, in the order of writing. -/
def given (g : Bytes → Bytes) (w : World) (s : Encrypted) : MtpOp → List Stamp
  | .aside _ => []
  | .push buffer request => (s.push w g buffer request).2.2.2.map Written.stamp
  | .finalize buffer =>
    let (s, _, written) := s.finalizeAcks w buffer
    written.map Written.stamp ++ s.containerStamp w

theorem stamps_finalizePlain (h : s.finalizePlain w buffer = (s', buffer')) :
    s.clock.Stamps (s.containerStamp w) s'.clock := by
  unfold finalizePlain at h
  unfold containerStamp
  split at h
  next hzero =>
    cases h
    rw [if_pos (by omega)]
    exact .refl s.clock
  next hnonzero =>
    simp only at h
    split at h
    next hmany =>
      cases h
      rw [if_neg (by omega)]
      exact .single s.clock ⟨w.system s.reads, false⟩
    next hone =>
      cases h
      rw [if_pos (by omega)]
      exact .refl s.clock

/-- The container of a packet is written with its stamp, before its messages. -/
theorem container_stamped (h : s.finalizePlain w buffer = (s', buffer')) :
    ∀ st ∈ s.containerStamp w, ∃ rest, buffer' = Tl.serializeI64 s.getCurrentSalt ++
      (Tl.serializeI64 s.sessionId ++ (Tl.serializeI64 st.msgId ++
        (Tl.serializeI32 st.seqNo ++ rest))) := by
  intro st hst
  unfold containerStamp at hst
  split at hst
  next => simp at hst
  next hmany =>
    obtain rfl := List.mem_singleton.mp hst
    unfold finalizePlain at h
    rw [if_neg (by omega)] at h
    simp only at h
    rw [if_pos (by omega)] at h
    have hsnd := (congrArg Prod.snd h).symm
    simp only [List.append_assoc] at hsnd
    exact ⟨_, hsnd⟩

/-- A packet that corrects nothing leaves the clock and the sequence alone. -/
theorem clock_processPlaintext {plaintext : Bytes}
    (h : (s.processPlaintext z w plaintext).corrections = []) :
    (s.processPlaintext z w plaintext).mtp.clock = s.clock := by
  unfold processPlaintext at h ⊢
  cases hm : s.readPlaintext plaintext with
  | error e => rfl
  | ok message =>
    obtain ⟨more, hmore, hclock⟩ := Inbound.corrects_coarse.processBounded (z := z) (w := w)
      message s.beginPacket
    rw [show s.beginPacket.corrections = [] from rfl, List.nil_append] at hmore
    rw [← hmore] at hclock
    simp only [hm] at h ⊢
    cases hr : Inbound.processBounded z w message s.beginPacket with
    | ok _ after =>
      rw [hr] at hclock
      simp only [hr] at h
      exact hclock h
    | error e after =>
      rw [hr] at hclock
      simp only [hr] at h
      exact hclock h

theorem clock_turn {a : Aside} (h : (s.turn z w a).1.corrections = []) :
    (s.turn z w a).2.clock = s.clock := by
  cases a with
  | processPlaintext plaintext =>
    refine clock_processPlaintext ?_
    simpa [MtpEvent.corrections, MtpEvent.outcomes, turn] using h
  | onServiceTimeout => rfl
  | setReceiveUpdates enabled => rfl
  | setDecodeLimits limits => rfl
  | setAckBatch count => rfl

/-- A call that corrects nothing gives its stamps one after the other. -/
theorem stamps_call {op : MtpOp} (hop : (s.call z g c w op).1.corrections = []) :
    s.clock.Stamps (s.given g w op) (s.call z g c w op).2.clock := by
  cases op with
  | aside a =>
    simp only [call, given] at hop ⊢
    rw [clock_turn hop]
    exact .refl s.clock
  | push buffer request =>
    rcases h : s.push w g buffer request with ⟨id, s', buffer', written⟩
    simp only [call, given, h]
    exact (writes_push h).stamps
  | finalize buffer =>
    rcases h : s.finalize w c buffer with ⟨id, s', packet, written⟩
    obtain ⟨s₁, buffer₁, s₂, plain, ha, hp, _, hclock, _⟩ := finalize_eq h
    simp only [call, given, h, ha, hclock]
    exact (writes_finalizeAcks ha).stamps.trans (stamps_finalizePlain hp)

theorem lastMsgId_turn (a : Aside) : (s.turn z w a).2.lastMsgId = s.lastMsgId ∨
    (s.turn z w a).2.lastMsgId = 0 := by
  cases a with
  | processPlaintext plaintext =>
    simp only [turn]
    unfold processPlaintext
    split
    next => exact Or.inl rfl
    next message _ =>
      have h := Inbound.lastMsgId_coarse.processBounded (z := z) (w := w) message
        s.beginPacket
      split
      next hr =>
        rw [hr] at h
        exact h
      next hr =>
        rw [hr] at h
        exact h
  | onServiceTimeout => exact Or.inl rfl
  | setReceiveUpdates enabled => exact Or.inl rfl
  | setDecodeLimits limits => exact Or.inl rfl
  | setAckBatch count => exact Or.inl rfl

/-- In a run there is room for each stamp at the time it is given. -/
def HasRoom (z : Bytes → Inflated) (g : Bytes → Bytes) (c : Crypto) (w : World)
    (s : Encrypted) : List MtpOp → Prop
  | [] => True
  | op :: ops => s.clock.AllRoom (s.given g w op) ∧
    (s.call z g c w op).2.HasRoom z g c w ops

theorem sane_call {op : MtpOp} (hs : s.clock.Sane) (hroom : s.clock.AllRoom (s.given g w op)) :
    (s.call z g c w op).2.clock.Sane := by
  by_cases hop : ∃ a, op = .aside a
  · obtain ⟨a, rfl⟩ := hop
    simp only [call]
    unfold Clock.Sane clock
    simp only
    rcases lastMsgId_turn (z := z) (w := w) (s := s) a with h | h
    · rw [h]
      exact hs
    · rw [h]
      exact ⟨by decide, by decide⟩
  · have hnone : (s.call z g c w op).1.corrections = [] := by
      cases op with
      | aside a => exact absurd ⟨a, rfl⟩ hop
      | push buffer request => rfl
      | finalize buffer => rfl
    exact ((stamps_call hnone).proper hs hroom).2

theorem sane_run (ops rest : List MtpOp) : ∀ s : Encrypted, s.clock.Sane →
    s.HasRoom z g c w (ops ++ rest) → (s.run z g c w ops).2.clock.Sane ∧
      (s.run z g c w ops).2.HasRoom z g c w rest := by
  induction ops with
  | nil => exact fun s hs hroom => ⟨hs, hroom⟩
  | cons op ops ih =>
    intro s hs hroom
    exact ih _ (sane_call hs hroom.1) hroom.2

/-- The stamps that one call after the other gives. -/
def stamped (z : Bytes → Inflated) (g : Bytes → Bytes) (c : Crypto) (w : World)
    (s : Encrypted) : List MtpOp → List Stamp
  | [] => []
  | op :: ops => s.given g w op ++ (s.call z g c w op).2.stamped z g c w ops

theorem stamps_stamped (calls : List MtpOp) : ∀ s : Encrypted, s.HasRoom z g c w calls →
    (∀ event ∈ (s.run z g c w calls).1, event.corrections = []) →
    (∃ c', s.clock.Stamps (s.stamped z g c w calls) c') ∧
      s.clock.AllRoom (s.stamped z g c w calls) := by
  induction calls with
  | nil => exact fun s _ _ => ⟨⟨s.clock, .refl s.clock⟩, trivial⟩
  | cons op ops ih =>
    intro s hroom hnone
    rw [run_cons] at hnone
    have hop := stamps_call (hnone _ List.mem_cons_self)
    obtain ⟨⟨c', hstamps⟩, hrest⟩ := ih _ hroom.2 fun event he => hnone event (List.mem_cons_of_mem _ he)
    exact ⟨⟨c', hop.trans hstamps⟩, hop.append_room hroom.1 hrest⟩

/-- While there is room for the next, messages between two corrections of a session, whatever
else it receives in between, have ever larger identifiers, and sequence numbers that count
those related to content. -/
theorem stamps_follow_protocol (b : Builder) (authKey : AuthKey) (sessionId : Int64)
    (ops calls : List MtpOp)
    (hroom : (b.finish authKey sessionId).HasRoom z g c w (ops ++ calls))
    (hnone : ∀ event ∈ (((b.finish authKey sessionId).run z g c w ops).2.run z g c w calls).1,
      event.corrections = []) :
    let s := ((b.finish authKey sessionId).run z g c w ops).2
    Clock.Proper s.sequence.toInt (s.stamped z g c w calls) ∧
      ∀ (s₁ s₂ : Encrypted) (buffer plain : Bytes), s₁.finalizePlain w buffer = (s₂, plain) →
        ∀ st ∈ s₁.containerStamp w, ∃ rest, plain = Tl.serializeI64 s₁.getCurrentSalt ++
          (Tl.serializeI64 s₁.sessionId ++ (Tl.serializeI64 st.msgId ++
            (Tl.serializeI32 st.seqNo ++ rest))) := by
  have hstart : (b.finish authKey sessionId).clock.Sane := ⟨Int.le_refl 0, rfl⟩
  obtain ⟨hsane, hrest⟩ := sane_run ops _ _ hstart hroom
  obtain ⟨⟨c', hstamps⟩, hall⟩ := stamps_stamped calls _ hrest hnone
  exact ⟨(hstamps.proper hsane hall).1, fun _ _ _ _ => container_stamped⟩

/-- Two requests in a container, an answer that needs an acknowledgement, and a third request after
it, while the clock goes backwards: the acknowledgement and the container have even sequence numbers. -/
theorem stamps_follow_protocol_requests :
    let s : Encrypted := Builder.finish ⟨⟨2 ^ 24, 2 ^ 25, 8, 2 ^ 12⟩, 0, 0, none, true, 1⟩
      ⟨⟨List.replicate 256 0, List.length_replicate⟩, ⟨List.replicate 8 0, List.length_replicate⟩⟩ 7
    let w : World := ⟨fun _ => 0, fun n => if n = 0 then (1000, 5) else (990, 7),
      fun _ => ⟨List.replicate 32 0, List.length_replicate⟩⟩
    let z : Bytes → Inflated := fun b => ⟨b, none⟩
    let g : Bytes → Bytes := fun b => b
    let c : Crypto := ⟨fun _ => List.replicate 32 0, fun _ => List.length_replicate,
      fun _ => ⟨fun b => b, fun b => b, fun _ h => h, fun _ h => h, fun _ _ => rfl⟩⟩
    let pong := Tl.serializeI64 0 ++ (Tl.serializeI64 7 ++ (ManualTl.Message.serialize
      ⟨5, 1, Tl.serializeU32 0x347773c5 ++ (Tl.serializeI64 1 ++ Tl.serializeI64 2)⟩ ++
        List.replicate 12 0))
    let one := (s.push w g [] [1, 2, 3, 4]).2
    let two := (one.1.push w g one.2.1 [5, 6, 7, 8]).2
    let received := ((two.1.finalize w c two.2.1).2.1.turn z w (.processPlaintext pong)).2
    let three := (received.push w g [] [9, 9, 9, 9]).2
    let calls : List MtpOp := [.push [] [1, 2, 3, 4], .push one.2.1 [5, 6, 7, 8], .finalize two.2.1,
      .aside (.processPlaintext pong), .push [] [9, 9, 9, 9], .finalize three.2.1]
    Clock.Proper 0 (s.stamped z g c w calls) ∧
      s.stamped z g c w calls = [⟨4294967296020, 1, true⟩, ⟨4294967296024, 3, true⟩,
        ⟨4294967296028, 4, false⟩, ⟨4294967296032, 4, false⟩, ⟨4294967296036, 5, true⟩,
        ⟨4294967296040, 6, false⟩] ∧
      received.pendingAck = [5] := by
  intro s w z g c pong one two received three calls
  refine ⟨(stamps_follow_protocol _ _ 7 [] calls ?_ ?_).1, ?_, ?_⟩
  · exact ⟨by decide +kernel, by decide +kernel, by decide +kernel, by decide +kernel,
      by decide +kernel, by decide +kernel, trivial⟩
  · decide +kernel
  · decide +kernel
  · decide +kernel

/-- A session with nothing to write but requests. -/
structure Quiet (s : Encrypted) : Prop where
  timeOffset : s.timeOffset = 0
  salts : s.salts = [⟨0, Int32.maxValue, 0⟩]
  startSaltTime : s.startSaltTime = none
  saltRequestMsgId : s.saltRequestMsgId = none
  pendingAck : s.pendingAck = []
  requestDeferredByAck : s.requestDeferredByAck = false
  compressionThreshold : s.compressionThreshold = none
  receiveUpdates : s.receiveUpdates = true
  msgCount : s.msgCount = 0

/-- A world in the last instant that identifiers can tell, for as long as they last. -/
def lastInstant : World :=
  ⟨fun _ => 0, fun _ => (2147483647, 999999999),
    fun _ => ⟨List.replicate 32 0, length_zeros32⟩⟩

theorem quiet_push (h : s.Quiet) : ∃ written s₁ buffer₁ msgId,
    s.push lastInstant g [] [1, 2, 3, 4] = (some msgId, s₁, buffer₁, written) ∧
      written.map Written.stamp = [(s.clock.take ⟨(2147483647, 999999999), true⟩).1] ∧
      s₁.clock = (s.clock.take ⟨(2147483647, 999999999), true⟩).2 ∧
      Quiet { s₁ with msgCount := 0 } ∧ s₁.msgCount = 1 := by
  have hrotate : s.rotateSalts lastInstant = s := by
    unfold rotateSalts
    rw [h.startSaltTime]
  have hsalts : s.tryRequestSalts lastInstant [] = (s, [], []) := by
    unfold tryRequestSalts
    rw [if_neg (by simp [getCurrentSalt, h.salts])]
  have hacks : s.pushAcks lastInstant [] = (s, [], []) := by
    unfold pushAcks ackDue
    simp [h.requestDeferredByAck, h.pendingAck]
  have hbody : s.requestBody g [1, 2, 3, 4] = [1, 2, 3, 4] := by
    unfold requestBody withoutUpdatesPrefixLen
    simp [h.compressionThreshold, h.receiveUpdates]
  have hfits : s.messageFits [] 4 = true := by
    rw [messageFits_iff, h.msgCount]
    decide
  have hvalid : requestFits [1, 2, 3, 4] s.receiveUpdates = true := by
    rw [h.receiveUpdates]
    decide
  have hrequest : s.pushRequest lastInstant g [] [1, 2, 3, 4] false =
      (some (s.serializeMsg lastInstant [] [1, 2, 3, 4] true).1,
        { (s.serializeMsg lastInstant [] [1, 2, 3, 4] true).2.1 with requestDeferredByAck := false },
        (s.serializeMsg lastInstant [] [1, 2, 3, 4] true).2.2) := by
    unfold pushRequest
    simp only [hbody]
    rw [if_neg (by rw [h.msgCount]; decide), if_neg (by simp [hfits])]
  have hpush : s.push lastInstant g [] [1, 2, 3, 4] =
      s.pushRequest lastInstant g [] [1, 2, 3, 4] false := by
    unfold push
    rw [if_neg (by simp [hvalid])]
    simp only [hrotate, hsalts, hacks]
    rw [if_neg (by simp [h.saltRequestMsgId])]
    simp
  rw [hpush, hrequest]
  refine ⟨_, _, _, _, rfl, rfl, rfl, ?_, ?_⟩
  · exact ⟨h.timeOffset, h.salts, h.startSaltTime, h.saltRequestMsgId, h.pendingAck, rfl,
      h.compressionThreshold, h.receiveUpdates, rfl⟩
  · show s.msgCount + 1 = 1
    rw [h.msgCount]

theorem quiet_finalize (h : Quiet { s with msgCount := 0 }) (hone : s.msgCount = 1) :
    s.given g lastInstant (.finalize []) = [] ∧
      (s.finalize lastInstant c []).2.1.clock = s.clock ∧
      (s.finalize lastInstant c []).2.1.Quiet := by
  have hacks : s.finalizeAcks lastInstant [] = (s, [], []) := by
    unfold finalizeAcks ackDue
    have hsalt : s.saltRequestMsgId = none := h.saltRequestMsgId
    have hnone : s.pendingAck = [] := h.pendingAck
    simp [hsalt, hnone]
  have hplain : s.finalizePlain lastInstant [] = ({ s with msgCount := 0 },
      (Tl.serializeI64 s.getCurrentSalt ++ Tl.serializeI64 s.sessionId) ++ []) := by
    unfold finalizePlain
    rw [if_neg (by omega)]
    simp only
    rw [if_neg (by omega)]
  have hne : (Tl.serializeI64 s.getCurrentSalt ++ Tl.serializeI64 s.sessionId) ++ [] ≠ [] := by
    intro hnil
    have := congrArg List.length hnil
    simp [Tl.serializeI64] at this
  have hfinal : (s.finalize lastInstant c []).2.1 = tick { s with msgCount := 0 } := by
    unfold finalize
    simp only [hacks, hplain]
    rw [if_neg hne]
  refine ⟨?_, ?_, ?_⟩
  · simp [given, hacks, containerStamp, hone]
  · rw [hfinal]
    rfl
  · rw [hfinal]
    exact ⟨h.timeOffset, h.salts, h.startSaltTime, h.saltRequestMsgId, h.pendingAck,
      h.requestDeferredByAck, h.compressionThreshold, h.receiveUpdates, rfl⟩

/-- A request in each packet, for a number of packets. -/
def packets (n : Nat) : List MtpOp :=
  (List.replicate n [MtpOp.push [] [1, 2, 3, 4], .finalize []]).flatten

theorem quiet_stamped (n : Nat) : ∀ s : Encrypted, s.Quiet →
    s.stamped z g c lastInstant (packets n) =
      (s.clock.stamps (List.replicate n ⟨(2147483647, 999999999), true⟩)).1 := by
  induction n with
  | zero => exact fun s _ => rfl
  | succ n ih =>
    intro s h
    obtain ⟨written, s₁, buffer₁, msgId, hpush, hstamp, hclock, hq, hone⟩ :=
      quiet_push (g := g) h
    obtain ⟨hgiven, hclock', hq'⟩ := quiet_finalize (g := g) (c := c) hq hone
    have hcons : packets (n + 1) = .push [] [1, 2, 3, 4] :: .finalize [] :: packets n := by
      simp [packets, List.replicate_succ]
    have hnext : ((s.call z g c lastInstant (.push [] [1, 2, 3, 4])).2.call z g c
        lastInstant (.finalize [])).2 = (s₁.finalize lastInstant c []).2.1 := by
      simp only [call, hpush]
    have hfirst : (s.call z g c lastInstant (.push [] [1, 2, 3, 4])).2 = s₁ := by
      simp only [call, hpush]
    rw [hcons]
    simp only [stamped]
    rw [hnext, hfirst, hgiven, ih _ hq', hclock', hclock, List.replicate_succ]
    simp only [given, hpush, hstamp, Clock.stamps, List.nil_append, List.cons_append]

/-- The identifier of the last instant. -/
theorem instantId_last {clock : Clock} (h : clock.timeOffset = 0) :
    clock.instantId (2147483647, 999999999) = 9223372036559808508 := by
  unfold Clock.instantId
  rw [h]
  decide

theorem stamps_last (n : Nat) : ∀ clock : Clock, clock.timeOffset = 0 →
    9223372036559808508 ≤ clock.lastMsgId.toInt → clock.lastMsgId.toInt + 4 * n < 2 ^ 63 →
    (clock.stamps (List.replicate n ⟨(2147483647, 999999999), true⟩)).2.timeOffset = 0 ∧
      (clock.stamps (List.replicate n ⟨(2147483647, 999999999), true⟩)).2.lastMsgId.toInt =
        clock.lastMsgId.toInt + 4 * n := by
  induction n with
  | zero => exact fun clock h _ _ => ⟨h, by simp [Clock.stamps]⟩
  | succ n ih =>
    intro clock hoffset hlast hroom
    have hid := instantId_last hoffset
    have hle : clock.lastMsgId ≥ clock.instantId (2147483647, 999999999) := by
      rw [hid]
      exact Int64.le_iff_toInt_le.mpr (by simpa using hlast)
    have hnext : (clock.take ⟨(2147483647, 999999999), true⟩).2.lastMsgId = clock.lastMsgId + 4 := by
      rw [Clock.take_lastMsgId, Clock.take_msgId, if_pos hle]
    have hadd := Clock.toInt_add_four (x := clock.lastMsgId) (by omega)
    rw [List.replicate_succ]
    simp only [Clock.stamps]
    have hrest := ih (clock.take ⟨(2147483647, 999999999), true⟩).2 hoffset
      (by rw [hnext, hadd]; omega) (by rw [hnext, hadd]; push_cast at hroom; omega)
    refine ⟨hrest.1, ?_⟩
    rw [hrest.2, hnext, hadd]
    push_cast
    omega

theorem replicate_ends (n : Nat) (t : Taking) :
    List.replicate (n + 2) t = [t] ++ (List.replicate n t ++ [t]) := by
  rw [List.replicate_succ, List.replicate_succ']
  rfl

theorem not_proper_of_last {n : Nat} (hn : 9223372036559808508 + 4 * (n : Int) = 2 ^ 63 - 4) :
    ¬Clock.Proper 0 ((⟨0, 0, 0⟩ : Clock).stamps
      (List.replicate (n + 2) ⟨(2147483647, 999999999), true⟩)).1 := by
  intro hproper
  obtain ⟨start, hstart⟩ : ∃ start : Clock, start = ⟨0, 0, 0⟩ := ⟨_, rfl⟩
  obtain ⟨t, ht⟩ : ∃ t : Taking, t = ⟨(2147483647, 999999999), true⟩ := ⟨_, rfl⟩
  have hfirst : (start.take t).2.lastMsgId.toInt = 9223372036559808508 := by
    rw [hstart, ht]
    decide
  obtain ⟨hoffset, hlast⟩ := stamps_last n (start.take t).2 (by rw [hstart, ht]; rfl)
    (by rw [hfirst]) (by rw [hfirst]; omega)
  rw [← ht, hfirst, hn] at hlast
  rw [← ht] at hoffset
  obtain ⟨near, hnear⟩ : ∃ near, near = ((start.take t).2.stamps (List.replicate n t)).2 :=
    ⟨_, rfl⟩
  rw [← hnear] at hoffset hlast
  have hnegative : (near.take t).1.msgId.toInt = -9223372036854775808 := by
    have hid := instantId_last hoffset
    have heq : near.lastMsgId = 9223372036854775804 := Int64.toInt_inj.mp (hlast.trans (by decide))
    rw [Clock.take_msgId, ht, hid, heq]
    decide
  have hmem : (near.take t).1 ∈ (start.stamps (List.replicate (n + 2) t)).1 := by
    rw [replicate_ends, Clock.stamps_append, Clock.stamps_append, hnear]
    simp [Clock.stamps]
  rw [← ht, ← hstart] at hproper
  have hpositive := (hproper.positive _ hmem).1
  omega

/-- In the last instant the identifiers of a session run out, and the next one is negative. -/
theorem identifiers_run_out :
    ¬Clock.Proper 0 ((Builder.finish ⟨⟨2 ^ 24, 2 ^ 25, 8, 2 ^ 12⟩, 0, 0, none, true, 1⟩
      ⟨⟨List.replicate 256 0, List.length_replicate⟩, ⟨List.replicate 8 0, List.length_replicate⟩⟩
      7).stamped (fun b => ⟨b, none⟩) (fun b => b)
        ⟨fun _ => List.replicate 32 0, fun _ => List.length_replicate,
          fun _ => ⟨fun b => b, fun b => b, fun _ h => h, fun _ h => h, fun _ _ => rfl⟩⟩
        lastInstant (packets (73741824 + 2))) := by
  generalize hn : 73741824 = n
  rw [quiet_stamped _ _ ⟨rfl, rfl, rfl, rfl, rfl, rfl, rfl, rfl, rfl⟩]
  exact not_proper_of_last (by omega)

end Encrypted

end Grammers
