import Grammers.InboundEffect
import Grammers.TlCode

namespace Grammers

/-- Acknowledgements are not related to content, and all else is. -/
def Written.stamp : Written → Stamp
  | .ack msgId seqNo _ => ⟨msgId, seqNo, false⟩
  | .other message => ⟨message.msgId, message.seqNo, true⟩

namespace Encrypted

variable {w : World} {g : Bytes → Bytes} {s s' s'' : Encrypted} {buffer buffer' buffer'' : Bytes}
  {written written' : List Written}

/-- The bytes of messages one after the other. -/
def content (written : List Written) : Bytes := written.flatMap fun x => x.message.serialize

/-- What writing messages does not change. -/
def setup (s : Encrypted) : Received × AuthKey × Int64 × Bool :=
  (s.received, s.authKey, s.sessionId, s.receiveUpdates)

/-- What was written to a buffer, and what became of the acknowledgements that waited. -/
structure Writes (s : Encrypted) (buffer : Bytes) (s' : Encrypted) (buffer' : Bytes)
    (written : List Written) : Prop where
  bytes : buffer' = buffer ++ content written
  msgCount : s'.msgCount = s.msgCount + written.length
  acks : written.flatMap Written.ids ++ s'.pendingAck = s.pendingAck
  short : ∀ x ∈ written, x.ids.length ≤ 8192
  waits : s.Waits → s'.Waits
  setup : s'.setup = s.setup
  count : s.msgCount ≤ MessageContainer.maximumLength → s'.msgCount ≤ MessageContainer.maximumLength
  size : buffer.length ≤ MessageContainer.maximumSize →
    buffer'.length ≤ MessageContainer.maximumSize
  words : ∀ x ∈ written, 4 ≤ x.message.body.length ∧ x.message.body.length % 4 = 0
  stamps : s.clock.Stamps (written.map Written.stamp) s'.clock

theorem content_append (written written' : List Written) :
    content (written ++ written') = content written ++ content written' := by
  simp [content]

namespace Writes

theorem trans (h : Writes s buffer s' buffer' written)
    (h' : Writes s' buffer' s'' buffer'' written') :
    Writes s buffer s'' buffer'' (written ++ written') where
  bytes := by rw [h'.bytes, h.bytes, content_append, List.append_assoc]
  msgCount := by rw [h'.msgCount, h.msgCount, List.length_append, Nat.add_assoc]
  acks := by rw [List.flatMap_append, List.append_assoc, h'.acks, h.acks]
  short := fun x hx => (List.mem_append.mp hx).elim (h.short x) (h'.short x)
  waits := fun hw => h'.waits (h.waits hw)
  setup := h'.setup.trans h.setup
  count := fun hc => h'.count (h.count hc)
  size := fun hs => h'.size (h.size hs)
  words := fun x hx => (List.mem_append.mp hx).elim (h.words x) (h'.words x)
  stamps := by
    rw [List.map_append]
    exact h.stamps.trans h'.stamps

/-- Nothing is written, and what is changed has no part in writing. -/
theorem idle (buffer : Bytes) (hcount : s'.msgCount = s.msgCount)
    (hacks : s'.pendingAck = s.pendingAck) (hsince : s'.pendingAckSince = s.pendingAckSince)
    (hsetup : s'.setup = s.setup) (hclock : s'.clock = s.clock) : Writes s buffer s' buffer [] where
  bytes := by simp [content]
  msgCount := by simp [hcount]
  acks := by simp [hacks]
  short := by simp
  waits := fun hw hne => by
    rw [hsince]
    exact hw (hacks ▸ hne)
  setup := hsetup
  count := fun h => by rwa [hcount]
  size := fun h => h
  words := by simp
  stamps := by
    rw [hclock]
    exact .refl s.clock

theorem refl (s : Encrypted) (buffer : Bytes) : Writes s buffer s buffer [] :=
  idle buffer rfl rfl rfl rfl rfl

theorem andThen (h : Writes s buffer s' buffer' written) (hcount : s''.msgCount = s'.msgCount)
    (hacks : s''.pendingAck = s'.pendingAck) (hsince : s''.pendingAckSince = s'.pendingAckSince)
    (hsetup : s''.setup = s'.setup) (hclock : s''.clock = s'.clock) :
    Writes s buffer s'' buffer' written := by
  simpa using h.trans (idle buffer' hcount hacks hsince hsetup hclock)

end Writes

theorem writes_rotateSalts (buffer : Bytes) : Writes s buffer (s.rotateSalts w) buffer [] := by
  unfold rotateSalts
  split
  next => exact .refl s buffer
  next =>
    split
    next =>
      split
      next => exact .refl s buffer
      next =>
        simp only
        split
        next => exact .idle buffer rfl rfl rfl rfl rfl
        next => exact .idle buffer rfl rfl rfl rfl rfl
    next => exact .refl s buffer

theorem writes_ackDue (buffer : Bytes) : Writes s buffer (s.ackDue w).2 buffer [] := by
  unfold ackDue
  simp only
  split
  next => exact .refl s buffer
  next =>
    split
    next => exact .refl s buffer
    next =>
      split
      next => exact .refl s buffer
      next => exact .idle buffer rfl rfl rfl rfl rfl

theorem messageFits_iff (bodyLen : Nat) : s.messageFits buffer bodyLen = true ↔
    s.msgCount < MessageContainer.maximumLength ∧
      buffer.length + Message.sizeOverhead + bodyLen ≤ MessageContainer.maximumSize := by
  unfold messageFits
  rw [decide_eq_true_eq]

theorem length_serialize (message : ManualTl.Message) :
    message.serialize.length = Message.sizeOverhead + message.body.length := by
  simp [ManualTl.Message.serialize, Message.sizeOverhead, Tl.serializeI64, Tl.serializeI32]
  omega

theorem serializeMsgHeader_eq {bodyLen : Nat} {contentRelated : Bool} {msgId : Int64}
    {seqNo : Int32}
    (h : s.serializeMsgHeader w buffer bodyLen contentRelated = (msgId, seqNo, s', buffer')) :
    buffer' = buffer ++ (Tl.serializeI64 msgId ++ (Tl.serializeI32 seqNo ++
      Tl.serializeI32 (Int32.ofNat bodyLen))) ∧ s'.msgCount = s.msgCount + 1 ∧
      s'.pendingAck = s.pendingAck ∧ s'.pendingAckSince = s.pendingAckSince ∧
      s'.setup = s.setup ∧ s.clock.Stamps [⟨msgId, seqNo, contentRelated⟩] s'.clock := by
  unfold serializeMsgHeader getSeqNo at h
  simp only [Prod.mk.injEq] at h
  obtain ⟨rfl, rfl, rfl, rfl⟩ := h
  cases contentRelated with
  | true => exact ⟨rfl, rfl, rfl, rfl, rfl, .single s.clock ⟨w.system s.reads, true⟩⟩
  | false => exact ⟨rfl, rfl, rfl, rfl, rfl, .single s.clock ⟨w.system s.reads, false⟩⟩

/-- A message that fits is written after the others. -/
theorem Writes.message {x : Written} (hbytes : buffer' = buffer ++ x.message.serialize)
    (hcount : s'.msgCount = s.msgCount + 1) (hacks : x.ids ++ s'.pendingAck = s.pendingAck)
    (hshort : x.ids.length ≤ 8192) (hwaits : s.Waits → s'.Waits)
    (hsetup : s'.setup = s.setup)
    (hfits : s.messageFits buffer x.message.body.length = true)
    (hwords : 4 ≤ x.message.body.length ∧ x.message.body.length % 4 = 0)
    (hstamps : s.clock.Stamps [x.stamp] s'.clock) : Writes s buffer s' buffer' [x] := by
  rw [messageFits_iff] at hfits
  refine ⟨?_, hcount, ?_, ?_, hwaits, hsetup, ?_, ?_, ?_, hstamps⟩
  · simpa [content] using hbytes
  · simpa using hacks
  · simpa using hshort
  · intro _
    rw [hcount]
    exact hfits.1
  · intro _
    rw [hbytes, List.length_append, length_serialize]
    have := hfits.2
    omega
  · simpa using hwords

theorem writes_serializeMsg {body : Bytes} {msgId : Int64}
    (hfits : s.messageFits buffer body.length = true)
    (hwords : 4 ≤ body.length ∧ body.length % 4 = 0)
    (h : s.serializeMsg w buffer body true = (msgId, s', buffer', written)) :
    Writes s buffer s' buffer' written ∧ ∃ seqNo, written = [.other ⟨msgId, seqNo, body⟩] := by
  unfold serializeMsg at h
  rcases hh : s.serializeMsgHeader w buffer body.length true with
    ⟨id, seqNo, s₁, buffer₁⟩
  obtain ⟨hbytes, hcount, hacks, hsince, hsetup, hstamps⟩ := serializeMsgHeader_eq hh
  rw [hh] at h
  simp only [Prod.mk.injEq] at h
  obtain ⟨rfl, rfl, rfl, rfl⟩ := h
  refine ⟨.message ?_ hcount hacks (Nat.zero_le _) ?_ hsetup hfits hwords hstamps, seqNo, rfl⟩
  · simp [hbytes, Written.message, ManualTl.Message.serialize]
  · intro hw hne
    rw [hsince]
    exact hw (hacks ▸ hne)

theorem length_msgsAck (ids : List Int64) : (msgsAck ids).length = 12 + ids.length * 8 := by
  have hids : (ids.flatMap Tl.serializeI64).length = ids.length * 8 := by
    induction ids with
    | nil => rfl
    | cons id ids ih =>
      rw [List.flatMap_cons, List.length_append, ih, List.length_cons]
      simp [Tl.serializeI64]
      omega
  simp only [msgsAck, Tl.serializeVec, Tl.serializeRawVec, List.length_append, hids]
  simp [Tl.serializeU32, Tl.serializeI32]
  omega

theorem writes_serializePendingAck
    (h : s.serializePendingAck w buffer = (s', buffer', written)) :
    Writes s buffer s' buffer' written := by
  unfold serializePendingAck at h
  simp only at h
  generalize hcount : min (min s.pendingAck.length 8192) _ = count at h
  split at h
  next =>
    cases h
    exact .refl s buffer
  next hroom =>
    rw [not_or, Bool.not_eq_false] at hroom
    rcases hh : s.serializeMsgHeader w buffer (12 + count * 8) false with ⟨msgId, seqNo, s₁, buffer₁⟩
    obtain ⟨hbytes, hmsgs, hacks, hsince, hsetup, hstamps⟩ := serializeMsgHeader_eq hh
    rw [hh] at h
    simp only [Prod.mk.injEq] at h
    obtain ⟨rfl, rfl, rfl⟩ := h
    have hlen : (s₁.pendingAck.take count).length = count := by
      rw [List.length_take, hacks]
      omega
    have hbody : (msgsAck (s₁.pendingAck.take count)).length = 12 + count * 8 := by
      rw [length_msgsAck, hlen]
    generalize hm : (if s₁.pendingAck.drop count = [] then _ else _ : Encrypted) = m
    have hstate : m.msgCount = s₁.msgCount ∧ m.pendingAck = s₁.pendingAck.drop count ∧
        m.setup = s₁.setup ∧ (s.Waits → m.Waits) ∧ m.clock = s₁.clock := by
      rw [← hm]
      split
      next hnil => exact ⟨rfl, rfl, rfl, fun _ hne => absurd hnil hne, rfl⟩
      next hne =>
        refine ⟨rfl, rfl, rfl, fun hw _ => ?_, rfl⟩
        have hall : s.pendingAck ≠ [] := fun h => hne (by rw [hacks, h, List.drop_nil])
        exact hsince ▸ hw hall
    refine .message ?_ (hstate.1.trans hmsgs) ?_ ?_ hstate.2.2.2.1 (hstate.2.2.1.trans hsetup) ?_ ?_
      (hstate.2.2.2.2 ▸ hstamps)
    · simp only [Written.message, ManualTl.Message.serialize]
      rw [hbytes, hbody]
      simp only [msgsAck, Tl.serializeVec, Tl.serializeRawVec, hlen, List.append_assoc]
    · rw [hstate.2.1, Written.ids, List.take_append_drop, hacks]
    · rw [Written.ids, hlen]
      omega
    · rw [Written.message, hbody]
      exact hroom.2
    · rw [Written.message, hbody]
      omega

theorem writes_tryRequestSalts (h : s.tryRequestSalts w buffer = (s', buffer', written)) :
    Writes s buffer s' buffer' written := by
  unfold tryRequestSalts at h
  split at h
  next hdue =>
    rcases hm : s.serializeMsg w buffer (getFutureSalts numFutureSalts) true with
      ⟨msgId, s₁, buffer₁, written₁⟩
    rw [hm] at h
    simp only [Prod.mk.injEq] at h
    obtain ⟨rfl, rfl, rfl⟩ := h
    have hlen : (getFutureSalts numFutureSalts).length = 8 := by
      simp [getFutureSalts, Tl.serializeU32, Tl.serializeI32]
    have hw := (writes_serializeMsg (by rw [hlen]; exact hdue.2.2.2.2.2) (by omega) hm).1
    exact hw.andThen rfl rfl rfl rfl rfl
  next =>
    cases h
    exact .refl s buffer

theorem writes_pushAcks (h : s.pushAcks w buffer = (s', buffer', written)) :
    Writes s buffer s' buffer' written := by
  unfold pushAcks at h
  split at h
  next =>
    cases h
    exact .refl s buffer
  next =>
    have hd := writes_ackDue (w := w) (s := s) buffer
    rcases hdue : s.ackDue w with ⟨due, s₁⟩
    rw [hdue] at h hd
    simp only at h
    split at h
    next => simpa using hd.trans (writes_serializePendingAck h)
    next =>
      cases h
      exact hd

theorem withoutUpdatesPrefixLen_eq (request : Bytes) (receiveUpdates : Bool) :
    withoutUpdatesPrefixLen request receiveUpdates = 0 ∨
      withoutUpdatesPrefixLen request receiveUpdates = 4 := by
  unfold withoutUpdatesPrefixLen
  split
  next => exact Or.inl rfl
  next =>
    simp only
    generalize (if request.length < 4 then _ else _ : UInt32) = constructor
    split
    next => exact Or.inl rfl
    next => exact Or.inr rfl

/-- Requests are written in whole words and not without a constructor. -/
theorem requestBody_words {request : Bytes} (h : requestFits request s.receiveUpdates = true) :
    4 ≤ (s.requestBody g request).length ∧ (s.requestBody g request).length % 4 = 0 := by
  have hrequest : 4 ≤ request.length ∧ request.length % 4 = 0 := by
    unfold requestFits at h
    simp only at h
    split at h
    next => cases h
    next => omega
  have hpre : ((Tl.serializeU32 invokeWithoutUpdates).take
      (withoutUpdatesPrefixLen request s.receiveUpdates)).length % 4 = 0 := by
    rcases withoutUpdatesPrefixLen_eq request s.receiveUpdates with h | h
    · rw [h]
      rfl
    · rw [h]
      rfl
  have hplain : ∀ pre : Bytes, pre.length % 4 = 0 →
      4 ≤ (pre ++ request).length ∧ (pre ++ request).length % 4 = 0 := by
    intro pre h
    rw [List.length_append]
    omega
  have hpacked : ∀ b : Bytes, 4 ≤ (gzipPacked b).length ∧ (gzipPacked b).length % 4 = 0 := by
    intro b
    have hbytes := Tl.length_serializeBytes b
    have hid : (Tl.serializeU32 0x3072cfa1).length = 4 := by simp [Tl.serializeU32]
    rw [gzipPacked, List.length_append, hid]
    omega
  unfold requestBody
  simp only
  split
  next =>
    split
    next => exact hpacked _
    next => exact hplain _ hpre
  next => exact hplain _ hpre

theorem writes_pushRequest {request : Bytes} {wroteAck : Bool} {id : Option MsgId}
    (hvalid : requestFits request s.receiveUpdates = true)
    (h : s.pushRequest w g buffer request wroteAck = (id, s', buffer', written)) :
    Writes s buffer s' buffer' written := by
  unfold pushRequest at h
  simp only at h
  split at h
  next =>
    cases h
    exact .idle buffer rfl rfl rfl rfl rfl
  next =>
    split at h
    next =>
      cases h
      exact .idle buffer rfl rfl rfl rfl rfl
    next hfits =>
      rcases hm : s.serializeMsg w buffer (s.requestBody g request) true with
        ⟨msgId, s₁, buffer₁, written₁⟩
      rw [hm] at h
      simp only [Prod.mk.injEq] at h
      obtain ⟨rfl, rfl, rfl, rfl⟩ := h
      have hw := (writes_serializeMsg (by simpa using hfits) (requestBody_words hvalid) hm).1
      exact hw.andThen rfl rfl rfl rfl rfl

theorem writes_finalizeAcks (h : s.finalizeAcks w buffer = (s', buffer', written)) :
    Writes s buffer s' buffer' written := by
  unfold finalizeAcks at h
  split at h
  next =>
    cases h
    exact .refl s buffer
  next =>
    have hd := writes_ackDue (w := w) (s := s) buffer
    rcases hdue : s.ackDue w with ⟨due, s₁⟩
    rw [hdue] at h hd
    simp only at h
    split at h
    next =>
      split at h
      next => simpa using hd.trans (writes_serializePendingAck h)
      next =>
        have ht : Writes s₁ buffer s₁.tick buffer [] := .idle buffer rfl rfl rfl rfl rfl
        split at h
        next => simpa using (hd.trans ht).trans (writes_serializePendingAck h)
        next =>
          cases h
          simpa using hd.trans ht
    next =>
      cases h
      exact hd

theorem writes_push {request : Bytes} {id : Option MsgId}
    (h : s.push w g buffer request = (id, s', buffer', written)) :
    Writes s buffer s' buffer' written := by
  unfold push at h
  split at h
  next =>
    cases h
    exact .refl s buffer
  next hvalid =>
    have hr := writes_rotateSalts (w := w) (s := s) buffer
    simp only at h
    rcases ht : (s.rotateSalts w).tryRequestSalts w buffer with ⟨s₁, buffer₁, salts⟩
    have hs := writes_tryRequestSalts ht
    rw [ht] at h
    simp only at h
    split at h
    next =>
      cases h
      simpa using hr.trans hs
    next =>
      rcases ha : s₁.pushAcks w buffer₁ with ⟨s₂, buffer₂, acks⟩
      rw [ha] at h
      simp only at h
      rcases hp : s₂.pushRequest w g buffer₂ request (decide (s₂.msgCount ≠ s₁.msgCount)) with
        ⟨id', s₃, buffer₃, written₃⟩
      rw [hp] at h
      cases h
      have hvalid' : requestFits request s₂.receiveUpdates = true := by
        have hsetup := (hr.trans (hs.trans (writes_pushAcks ha))).setup
        simp only [setup, Prod.mk.injEq] at hsetup
        rw [hsetup.2.2.2]
        simpa using hvalid
      simpa using hr.trans (hs.trans ((writes_pushAcks ha).trans (writes_pushRequest hvalid' hp)))

/-- What writing acknowledgements does not change either. -/
def kept (s : Encrypted) : List FutureSalt × Option MsgId × Bool :=
  (s.salts, s.saltRequestMsgId, s.requestDeferredByAck)

theorem kept_serializePendingAck
    (h : s.serializePendingAck w buffer = (s', buffer', written)) : s'.kept = s.kept := by
  unfold serializePendingAck at h
  simp only at h
  split at h
  next =>
    cases h
    rfl
  next =>
    cases h
    split
    next => rfl
    next => rfl

theorem kept_ackDue : (s.ackDue w).2.kept = s.kept := by
  unfold ackDue
  simp only
  split
  next => rfl
  next =>
    split
    next => rfl
    next =>
      split
      next => rfl
      next => rfl

theorem kept_finalizeAcks (h : s.finalizeAcks w buffer = (s', buffer', written)) : s'.kept = s.kept := by
  unfold finalizeAcks at h
  split at h
  next =>
    cases h
    rfl
  next =>
    have hd := kept_ackDue (w := w) (s := s)
    rcases hdue : s.ackDue w with ⟨due, s₁⟩
    rw [hdue] at h hd
    simp only at h
    split at h
    next =>
      split at h
      next => exact (kept_serializePendingAck h).trans hd
      next =>
        split at h
        next => exact (kept_serializePendingAck h).trans hd
        next =>
          cases h
          exact hd
    next =>
      cases h
      exact hd

/-- What finalizing leaves of a session. -/
structure Settles (s s' : Encrypted) : Prop where
  pendingAck : s'.pendingAck = s.pendingAck
  pendingAckSince : s'.pendingAckSince = s.pendingAckSince
  setup : s'.setup = s.setup
  kept : s'.kept = s.kept
  msgCount : s'.msgCount = 0

theorem settles_finalizePlain (h : s.finalizePlain w buffer = (s', buffer')) : Settles s s' := by
  unfold finalizePlain at h
  split at h
  next hzero =>
    cases h
    exact ⟨rfl, rfl, rfl, rfl, hzero⟩
  next =>
    simp only at h
    split at h
    next =>
      cases h
      exact ⟨rfl, rfl, rfl, rfl, rfl⟩
    next =>
      cases h
      exact ⟨rfl, rfl, rfl, rfl, rfl⟩

theorem finalizePlain_bytes (h : s.finalizePlain w buffer = (s', buffer')) :
    ∃ header, buffer' = header ++ buffer := by
  unfold finalizePlain at h
  split at h
  next =>
    cases h
    exact ⟨[], rfl⟩
  next =>
    simp only at h
    split at h
    next =>
      cases h
      exact ⟨_, (List.append_assoc _ _ _).symm⟩
    next =>
      cases h
      exact ⟨_, rfl⟩

/-- A packet: its acknowledgements are written, it is completed and then encrypted. -/
theorem finalize_eq {c : Crypto} {id : Option MsgId} {packet : Bytes}
    (h : s.finalize w c buffer = (id, s', packet, written)) :
    ∃ s₁ buffer₁ s₂ buffer₂, s.finalizeAcks w buffer = (s₁, buffer₁, written) ∧
      s₁.finalizePlain w buffer₁ = (s₂, buffer₂) ∧ Settles s₁ s' ∧ s'.clock = s₂.clock ∧
      (buffer₂ = [] ∧ id = none ∧ packet = [] ∨ buffer₂ ≠ [] ∧ id = some s₂.lastMsgId ∧
        packet = encryptDataV2 c s₂.authKey (w.random s₂.reads).val buffer₂) := by
  unfold finalize at h
  rcases ha : s.finalizeAcks w buffer with ⟨s₁, buffer₁, written₁⟩
  rw [ha] at h
  simp only at h
  rcases hp : s₁.finalizePlain w buffer₁ with ⟨s₂, buffer₂⟩
  rw [hp] at h
  have hs := settles_finalizePlain hp
  refine ⟨s₁, buffer₁, s₂, buffer₂, ?_⟩
  simp only at h
  split at h
  next hnil =>
    cases h
    exact ⟨rfl, hp, hs, rfl, Or.inl ⟨hnil, rfl, hnil⟩⟩
  next hne =>
    cases h
    exact ⟨rfl, hp, ⟨hs.pendingAck, hs.pendingAckSince, hs.setup, hs.kept, hs.msgCount⟩, rfl,
      Or.inr ⟨hne, rfl, rfl⟩⟩

end Encrypted

end Grammers
