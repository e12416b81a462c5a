import Grammers.Packet

namespace Grammers

namespace Encrypted

variable {w : World} {g : Bytes → Bytes} {c : Crypto} {s s' : Encrypted} {buffer buffer' : Bytes}
  {written : List Written}

/-- What keeps a request out of a packet, that cannot come up again before it is written. -/
def obstacles (s : Encrypted) : Nat :=
  (if s.saltRequestMsgId = none then 1 else 0) + (if s.requestDeferredByAck then 0 else 1)

theorem kept_rotateSalts : (s.rotateSalts w).saltRequestMsgId = s.saltRequestMsgId ∧
    (s.rotateSalts w).requestDeferredByAck = s.requestDeferredByAck := by
  unfold rotateSalts
  split
  next => exact ⟨rfl, rfl⟩
  next =>
    split
    next =>
      split
      next => exact ⟨rfl, rfl⟩
      next =>
        simp only
        split
        next => exact ⟨rfl, rfl⟩
        next => exact ⟨rfl, rfl⟩
    next => exact ⟨rfl, rfl⟩

theorem kept_serializeMsgHeader {bodyLen : Nat} {contentRelated : Bool} {msgId : Int64}
    {seqNo : Int32}
    (h : s.serializeMsgHeader w buffer bodyLen contentRelated = (msgId, seqNo, s', buffer')) :
    s'.kept = s.kept := by
  unfold serializeMsgHeader getSeqNo at h
  simp only [Prod.mk.injEq] at h
  obtain ⟨rfl, rfl, rfl, rfl⟩ := h
  cases contentRelated with
  | true => rfl
  | false => rfl

theorem kept_pushAcks (h : s.pushAcks w buffer = (s', buffer', written)) : s'.kept = s.kept := by
  unfold pushAcks at h
  split at h
  next =>
    cases h
    rfl
  next =>
    have hd := kept_ackDue (w := w) (s := s)
    rcases hdue : s.ackDue w with ⟨due, s₁⟩
    rw [hdue] at h hd
    simp only at h
    split at h
    next => exact (kept_serializePendingAck h).trans hd
    next =>
      cases h
      exact hd

/-- A request that fits is not longer than a packet, prefix and all, compressed or not. -/
theorem length_requestBody {request : Bytes} (h : requestFits request s.receiveUpdates = true) :
    Message.sizeOverhead + (s.requestBody g request).length ≤ MessageContainer.maximumSize := by
  have hmax := maximumSize_eq
  have hplain : ∀ pre : Bytes, pre = (Tl.serializeU32 invokeWithoutUpdates).take
      (withoutUpdatesPrefixLen request s.receiveUpdates) →
      Message.sizeOverhead + (pre.length + request.length) ≤ MessageContainer.maximumSize := by
    intro pre hpre
    have hlen : pre.length = withoutUpdatesPrefixLen request s.receiveUpdates := by
      rw [hpre]
      rcases withoutUpdatesPrefixLen_eq request s.receiveUpdates with h0 | h4
      · rw [h0]
        rfl
      · rw [h4]
        rfl
    have hprefix := withoutUpdatesPrefixLen_eq request s.receiveUpdates
    unfold requestFits at h
    simp only at h
    split at h
    next => cases h
    next =>
      simp only [decide_eq_true_eq, Bool.decide_or, Bool.or_eq_true] at h
      simp only [Message.sizeOverhead] at h ⊢
      omega
  unfold requestBody
  simp only
  split
  next =>
    split
    next hshort =>
      have := hplain _ rfl
      omega
    next =>
      rw [List.length_append]
      exact hplain _ rfl
  next =>
    rw [List.length_append]
    exact hplain _ rfl

theorem kept_serializeMsg {body : Bytes} {contentRelated : Bool} {msgId : Int64}
    (h : s.serializeMsg w buffer body contentRelated = (msgId, s', buffer', written)) :
    s'.kept = s.kept ∧ ∃ seqNo, written = [.other ⟨msgId, seqNo, body⟩] := by
  unfold serializeMsg at h
  rcases hh : s.serializeMsgHeader w buffer body.length contentRelated with
    ⟨id, seqNo, s₁, buffer₁⟩
  have hk := kept_serializeMsgHeader hh
  rw [hh] at h
  simp only [Prod.mk.injEq] at h
  obtain ⟨rfl, rfl, rfl, rfl⟩ := h
  exact ⟨hk, seqNo, rfl⟩

/-- Salts are asked for once, until there is an answer. -/
theorem tryRequestSalts_cases (h : s.tryRequestSalts w buffer = (s', buffer', written)) :
    s' = s ∧ buffer' = buffer ∧ written = [] ∨
      s.saltRequestMsgId = none ∧ s'.requestDeferredByAck = s.requestDeferredByAck ∧
        ∃ msgId seqNo, s'.saltRequestMsgId = some msgId ∧
          written = [.other ⟨msgId, seqNo, getFutureSalts numFutureSalts⟩] := by
  unfold tryRequestSalts at h
  split at h
  next hdue =>
    rcases hm : s.serializeMsg w buffer (getFutureSalts numFutureSalts) true with
      ⟨msgId, s₁, buffer₁, written₁⟩
    obtain ⟨hk, seqNo, hw⟩ := kept_serializeMsg hm
    rw [hm] at h
    simp only [Prod.mk.injEq] at h
    obtain ⟨rfl, rfl, rfl⟩ := h
    simp only [kept, Prod.mk.injEq] at hk
    exact Or.inr ⟨hdue.2.2.1, hk.2.2, msgId, seqNo, rfl, hw⟩
  next =>
    cases h
    exact Or.inl ⟨rfl, rfl, rfl⟩

theorem pushRequest_none {request : Bytes} {wroteAck : Bool}
    (h : s.pushRequest w g buffer request wroteAck = (none, s', buffer', written)) :
    s' = { s with requestDeferredByAck := s.requestDeferredByAck || wroteAck } ∧ written = [] := by
  unfold pushRequest at h
  simp only at h
  split at h
  next =>
    cases h
    exact ⟨rfl, rfl⟩
  next =>
    split at h
    next =>
      cases h
      exact ⟨rfl, rfl⟩
    next => cases h

/-- A valid request is written to a buffer that is empty. -/
theorem pushRequest_empty (request : Bytes) (wroteAck : Bool) (hzero : s.msgCount = 0)
    (hvalid : requestFits request s.receiveUpdates = true) :
    (s.pushRequest w g [] request wroteAck).1 ≠ none := by
  have hfits : s.messageFits [] (s.requestBody g request).length = true := by
    have hlen := length_requestBody (g := g) hvalid
    rw [messageFits_iff, hzero]
    refine ⟨by decide, ?_⟩
    simpa using hlen
  unfold pushRequest
  simp only
  rw [if_neg (by rw [hzero]; decide), if_neg (by simp [hfits])]
  nofun

theorem msgCount_zero_of_writes (h : Writes s buffer s' buffer' written)
    (hzero : s'.msgCount = s.msgCount) : buffer' = buffer := by
  have hnil : written = [] := List.eq_nil_of_length_eq_zero (by have := h.msgCount; omega)
  rw [h.bytes, hnil, content, List.flatMap_nil, List.append_nil]

/-- A request that is turned away from an empty buffer leaves an obstacle less. -/
theorem obstacles_push {request : Bytes} (hzero : s.msgCount = 0)
    (hvalid : requestFits request s.receiveUpdates = true)
    (h : s.push w g [] request = (none, s', buffer', written)) : s'.obstacles < s.obstacles := by
  unfold push at h
  rw [if_neg (by simp [hvalid])] at h
  have hr := writes_rotateSalts (w := w) (s := s) []
  obtain ⟨hkr, hkd⟩ := kept_rotateSalts (w := w) (s := s)
  simp only at h
  rcases ht : (s.rotateSalts w).tryRequestSalts w [] with ⟨s₁, buffer₁, salts⟩
  rw [ht] at h
  simp only at h
  split at h
  next hsalt =>
    cases h
    rw [hkr] at hsalt
    rcases tryRequestSalts_cases ht with ⟨rfl, _, _⟩ | ⟨hnone, hdefer, msgId, _, hsome, _⟩
    · rw [hkr] at hsalt
      exact absurd hsalt.2 (by simpa using hsalt.1)
    · simp only [obstacles, hsome, hdefer, hkd, hkr ▸ hnone]
      simp
  next hsalt =>
    rcases tryRequestSalts_cases ht with ⟨rfl, rfl, rfl⟩ | ⟨hnone, _, msgId, _, hsome, _⟩
    · rcases ha : (s.rotateSalts w).pushAcks w [] with ⟨s₂, buffer₂, acks⟩
      rw [ha] at h
      simp only at h
      have hw := writes_pushAcks ha
      have hkept := kept_pushAcks ha
      simp only [kept, Prod.mk.injEq] at hkept
      have hsetup := (hr.trans hw).setup
      simp only [setup, Prod.mk.injEq] at hsetup
      rcases hp : s₂.pushRequest w g buffer₂ request
        (decide (s₂.msgCount ≠ (s.rotateSalts w).msgCount)) with ⟨id', s₃, buffer₃, written₃⟩
      rw [hp] at h
      cases h
      by_cases hsame : s₂.msgCount = (s.rotateSalts w).msgCount
      · have hempty := msgCount_zero_of_writes hw hsame
        have hcount : s₂.msgCount = 0 := by
          rw [hsame, hr.msgCount, hzero]
          rfl
        have hnot := pushRequest_empty (w := w) (g := g) request
          (decide (s₂.msgCount ≠ (s.rotateSalts w).msgCount)) hcount (by rw [hsetup.2.2.2]; exact hvalid)
        rw [hempty] at hp
        rw [hp] at hnot
        exact absurd rfl hnot
      · have hfirst : (s.rotateSalts w).requestDeferredByAck = false := by
          rw [← Bool.not_eq_true]
          intro hdefer
          rw [pushAcks, if_pos hdefer] at ha
          cases ha
          exact hsame rfl
        obtain ⟨rfl, _⟩ := pushRequest_none hp
        have hwrote : decide (s₂.msgCount ≠ (s.rotateSalts w).msgCount) = true := decide_eq_true hsame
        simp only [obstacles, hkept.2.1, hkr, ← hkd, hfirst, hwrote]
        simp
    · rw [hnone, hsome] at hsalt
      simp at hsalt

end Encrypted

/-- A message that is not a request. -/
def Written.Housekeeping : Written → Prop
  | .ack _ _ _ => True
  | .other message => message.body = getFutureSalts numFutureSalts

namespace Encrypted

variable {w : World} {g : Bytes → Bytes} {c : Crypto} {s s' : Encrypted} {buffer buffer' : Bytes}
  {written : List Written}

theorem acks_of_serializePendingAck (h : s.serializePendingAck w buffer = (s', buffer', written)) :
    ∀ x ∈ written, x.Housekeeping := by
  unfold serializePendingAck at h
  simp only at h
  split at h
  next =>
    cases h
    simp
  next =>
    cases h
    simp [Written.Housekeeping]

theorem housekeeping_pushAcks (h : s.pushAcks w buffer = (s', buffer', written)) :
    ∀ x ∈ written, x.Housekeeping := by
  unfold pushAcks at h
  split at h
  next =>
    cases h
    simp
  next =>
    rcases hdue : s.ackDue w with ⟨due, s₁⟩
    rw [hdue] at h
    simp only at h
    split at h
    next => exact acks_of_serializePendingAck h
    next =>
      cases h
      simp

/-- A request that is turned away is not among what is written. -/
theorem housekeeping_push {request : Bytes}
    (h : s.push w g buffer request = (none, s', buffer', written)) :
    ∀ x ∈ written, x.Housekeeping := by
  unfold push at h
  split at h
  next =>
    cases h
    simp
  next =>
    simp only at h
    rcases ht : (s.rotateSalts w).tryRequestSalts w buffer with ⟨s₁, buffer₁, salts⟩
    have hsalts : ∀ x ∈ salts, x.Housekeeping := by
      rcases tryRequestSalts_cases ht with ⟨_, _, rfl⟩ | ⟨_, _, _, _, _, rfl⟩
      · simp
      · simp [Written.Housekeeping]
    rw [ht] at h
    simp only at h
    split at h
    next =>
      cases h
      exact hsalts
    next =>
      rcases ha : s₁.pushAcks w buffer₁ with ⟨s₂, buffer₂, acks⟩
      rw [ha] at h
      simp only at h
      rcases hp : s₂.pushRequest w g buffer₂ request (decide (s₂.msgCount ≠ s₁.msgCount)) with
        ⟨id', s₃, buffer₃, written₃⟩
      rw [hp] at h
      cases h
      obtain ⟨_, rfl⟩ := pushRequest_none hp
      intro x hx
      rcases List.mem_append.mp hx with hx | hx
      · exact hsalts x hx
      · exact housekeeping_pushAcks ha x (by simpa using hx)

/-- A request is pushed to an empty buffer, which is then finalized and cleared. -/
def round (g : Bytes → Bytes) (c : Crypto) (w : World) (s : Encrypted) (request : Bytes) :
    Option MsgId × Encrypted :=
  let (id, s, buffer, _) := s.push w g [] request
  let (_, s, _, _) := s.finalize w c buffer
  (id, s)

theorem round_spec {request : Bytes} (hzero : s.msgCount = 0)
    (hvalid : requestFits request s.receiveUpdates = true) :
    (s.round g c w request).2.msgCount = 0 ∧
      requestFits request (s.round g c w request).2.receiveUpdates = true ∧
      ((s.round g c w request).1 = none →
        (s.round g c w request).2.obstacles < s.obstacles) := by
  rcases hp : s.push w g [] request with ⟨id, s₁, buffer₁, written₁⟩
  rcases hf : s₁.finalize w c buffer₁ with ⟨id₂, s₂, packet, written₂⟩
  obtain ⟨s₃, buffer₃, s₄, plain, ha, _, hs, _, _⟩ := finalize_eq hf
  have hround : s.round g c w request = (id, s₂) := by
    simp only [round, hp, hf]
  rw [hround]
  have hsetup := hs.setup.trans ((writes_finalizeAcks ha).setup.trans (writes_push hp).setup)
  simp only [setup, Prod.mk.injEq] at hsetup
  refine ⟨hs.msgCount, ?_, fun hnone => ?_⟩
  · rw [hsetup.2.2.2]
    exact hvalid
  · subst hnone
    have hkept := hs.kept.trans (kept_finalizeAcks ha)
    simp only [kept, Prod.mk.injEq] at hkept
    have hless := obstacles_push hzero hvalid hp
    unfold obstacles at hless ⊢
    rw [hkept.2.1, hkept.2.2]
    exact hless

/-- The session after a number of rounds with the same request. -/
def rounds (g : Bytes → Bytes) (c : Crypto) (w : World) (s : Encrypted) (request : Bytes) :
    Nat → Encrypted
  | 0 => s
  | n + 1 => ((s.round g c w request).2).rounds g c w request n

/-- Each round that fails leaves an obstacle less, so there are no more of them than obstacles. -/
theorem exists_round {request : Bytes} : ∀ (n : Nat) (s : Encrypted), s.obstacles ≤ n →
    s.msgCount = 0 → requestFits request s.receiveUpdates = true →
    ∃ k ≤ n, ((s.rounds g c w request k).round g c w request).1 ≠ none := by
  intro n
  induction n with
  | zero =>
    intro s hn hzero hvalid
    obtain ⟨_, _, hless⟩ := round_spec (g := g) (c := c) (w := w) hzero hvalid
    refine ⟨0, Nat.le_refl 0, fun hnone => ?_⟩
    have := hless hnone
    omega
  | succ n ih =>
    intro s hn hzero hvalid
    obtain ⟨hzero', hvalid', hless⟩ := round_spec (g := g) (c := c) (w := w) hzero hvalid
    by_cases hnone : (s.round g c w request).1 = none
    · have := hless hnone
      obtain ⟨k, hk, hsome⟩ := ih _ (by omega) hzero' hvalid'
      exact ⟨k + 1, by omega, hsome⟩
    · exact ⟨0, Nat.zero_le _, hnone⟩

theorem obstacles_le (s : Encrypted) : s.obstacles ≤ 2 := by
  unfold obstacles
  split
  next => split <;> omega
  next => split <;> omega

theorem content_eq_nil (h : content written = []) : written = [] := by
  cases written with
  | nil => rfl
  | cons x xs =>
    have hlen := congrArg List.length h
    rw [content, List.flatMap_cons, List.length_append, length_serialize, Message.sizeOverhead] at hlen
    simp at hlen

/-- A push that returns nothing takes identifiers for what it writes, and that is not the request. -/
def TurnsAway (g : Bytes → Bytes) (w : World) (s : Encrypted) (request : Bytes) : Prop :=
  ∀ buffer s' buffer' written, s.push w g buffer request = (none, s', buffer', written) →
    (∀ x ∈ written, x.Housekeeping) ∧ s.clock.Stamps (written.map Written.stamp) s'.clock ∧
      buffer' = buffer ++ content written

/-- A valid request is written in one of three rounds, whatever waits besides it. -/
theorem request_not_starved {z : Bytes → Inflated} (b : Builder) (authKey : AuthKey)
    (sessionId : Int64) (turns : List Turn) (request : Bytes)
    (hempty : ((Session.start (b.finish authKey sessionId)).steps z g c w turns).buffer = [])
    (hvalid : requestFits request ((Session.start (b.finish authKey sessionId)).steps z g
      c w turns).mtp.receiveUpdates = true) :
    let s := ((Session.start (b.finish authKey sessionId)).steps z g c w turns).mtp
    (∃ k < 3, ((s.rounds g c w request k).round g c w request).1 ≠ none) ∧
      s.TurnsAway g w request := by
  have hstart : (b.finish authKey sessionId).Filled [] [] := ⟨rfl, rfl, by simp, by simp, by simp⟩
  have hfilled := Session.filled_steps (z := z) (g := g) (c := c) (w := w) turns
    (Session.start (b.finish authKey sessionId)) hstart
  generalize (Session.start (b.finish authKey sessionId)).steps z g c w turns = s at *
  have hzero : s.mtp.msgCount = 0 := by
    rw [hfilled.msgCount, content_eq_nil (hfilled.bytes.symm.trans hempty)]
    rfl
  obtain ⟨k, hk, hsome⟩ := exists_round (g := g) (c := c) (w := w) 2 s.mtp
    (obstacles_le s.mtp) hzero hvalid
  refine ⟨⟨k, by omega, hsome⟩, fun buffer s' buffer' written hp => ?_⟩
  have hw := writes_push hp
  exact ⟨housekeeping_push hp, hw.stamps, hw.bytes⟩

/-- A session that is about to ask for salts, in a world where time stands still. -/
def salted : Encrypted :=
  Builder.finish ⟨⟨2 ^ 24, 2 ^ 25, 8, 2 ^ 12⟩, 0, 1, none, true, 1⟩
    ⟨⟨List.replicate 256 0, List.length_replicate⟩, ⟨List.replicate 8 0, List.length_replicate⟩⟩ 7

def still : World :=
  ⟨fun _ => 0, fun _ => (1000, 0), fun _ => ⟨List.replicate 32 0, length_zeros32⟩⟩

def unkeyed : Crypto where
  sha256 := fun _ => List.replicate 32 0
  length_sha256 := fun _ => List.length_replicate
  aes256 := fun _ => ⟨fun b => b, fun b => b, fun _ h => h, fun _ h => h, fun _ _ => rfl⟩

theorem request_not_starved_salted :
    (∃ k < 3, ((salted.rounds (fun b => b) unkeyed still [1, 2, 3, 4] k).round (fun b => b) unkeyed
      still [1, 2, 3, 4]).1 ≠ none) ∧ salted.TurnsAway (fun b => b) still [1, 2, 3, 4] :=
  request_not_starved (z := fun b => ⟨b, none⟩) _ _ 7 [] [1, 2, 3, 4] rfl
    (show requestFits [1, 2, 3, 4] true = true by decide)

end Encrypted

end Grammers
