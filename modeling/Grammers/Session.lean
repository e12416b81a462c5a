import Grammers.InboundPacket
import Grammers.Outbound

namespace Grammers

open Checked StateError

/-- What is done with a session apart from writing messages. -/
inductive Aside where
  | processPlaintext (plaintext : Bytes)
  | onServiceTimeout
  | setReceiveUpdates (enabled : Bool)
  | setDecodeLimits (limits : DecodeLimits)
  | setAckBatch (count : Nat)

/-- A call on a session, with the buffer it is given. -/
inductive MtpOp where
  | aside (a : Aside)
  | push (buffer request : Bytes)
  | finalize (buffer : Bytes)

/-- What a call returned and what it wrote. -/
inductive MtpEvent where
  | processed (p : PacketResult)
  | pushed (buffer buffer' : Bytes) (id : Option MsgId) (written : List Written)
  | finalized (buffer packet : Bytes) (id : Option MsgId) (written : List Written)
  | silent

namespace MtpEvent

def written : MtpEvent → List Written
  | .pushed _ _ _ written => written
  | .finalized _ _ _ written => written
  | _ => []

def outcomes : MtpEvent → List PacketResult
  | .processed p => [p]
  | _ => []

/-- The messages that a call acknowledged. -/
def acked (event : MtpEvent) : List Int64 := event.written.flatMap Written.ids

/-- The messages that a call left to be acknowledged: those that need it and were processed, known
or not, and the answers that were announced. -/
def queued (event : MtpEvent) : List Int64 :=
  event.outcomes.flatMap fun p => p.visits.flatMap Visit.ids

/-- What was written is in the bytes. -/
def Spelled (c : Crypto) : MtpEvent → Prop
  | .pushed buffer buffer' _ written => buffer' = buffer ++ Encrypted.content written
  | .finalized buffer packet _ written =>
    ∃ header, header ++ (buffer ++ Encrypted.content written) = [] ∧ packet = [] ∨
      ∃ authKey padding, packet =
        Encrypted.encryptDataV2 c authKey padding (header ++ (buffer ++ Encrypted.content written))
  | _ => True

end MtpEvent

namespace Encrypted

variable (z : Bytes → Inflated) (g : Bytes → Bytes) (c : Crypto)
  (w : World)

def setReceiveUpdates (s : Encrypted) (enabled : Bool) : Encrypted :=
  { s with receiveUpdates := enabled }

def setDecodeLimits (s : Encrypted) (limits : DecodeLimits) : Encrypted :=
  { s with decodeLimits := limits }

def setAckBatch (s : Encrypted) (count : Nat) : Encrypted := { s with ackBatch := max count 1 }

def turn (s : Encrypted) : Aside → MtpEvent × Encrypted
  | .processPlaintext plaintext =>
    let p := s.processPlaintext z w plaintext
    (.processed p, p.mtp)
  | .onServiceTimeout => (.silent, s.onServiceTimeout)
  | .setReceiveUpdates enabled => (.silent, s.setReceiveUpdates enabled)
  | .setDecodeLimits limits => (.silent, s.setDecodeLimits limits)
  | .setAckBatch count => (.silent, s.setAckBatch count)

def call (s : Encrypted) : MtpOp → MtpEvent × Encrypted
  | .aside a => s.turn z w a
  | .push buffer request =>
    let (id, s, buffer', written) := s.push w g buffer request
    (.pushed buffer buffer' id written, s)
  | .finalize buffer =>
    let (id, s, packet, written) := s.finalize w c buffer
    (.finalized buffer packet id written, s)

/-- A run of calls and what they returned. -/
def run (s : Encrypted) : List MtpOp → List MtpEvent × Encrypted
  | [] => ([], s)
  | op :: ops =>
    let (event, s) := s.call z g c w op
    let (events, s) := s.run ops
    (event :: events, s)

variable {z g c w} {s s' : Encrypted}

/-- Whatever comes of a packet, what it leaves to be acknowledged is what it visited. -/
theorem processPlaintext_acked (plaintext : Bytes) :
    (s.processPlaintext z w plaintext).mtp.msgCount = s.msgCount ∧
      (s.processPlaintext z w plaintext).mtp.pendingAck = s.pendingAck ++
        (s.processPlaintext z w plaintext).visits.flatMap Visit.ids ∧
      (s.Waits → (s.processPlaintext z w plaintext).mtp.Waits) := by
  unfold processPlaintext
  split
  next => exact ⟨rfl, by simp, fun h => h⟩
  next message _ =>
    have ha := Inbound.acked_coarse.processBounded (z := z) (w := w) message s.beginPacket
    obtain ⟨more, hvisits, hacks⟩ := ha.acks
    rw [show s.beginPacket.visits = [] from rfl, List.nil_append] at hvisits
    rw [← hvisits] at hacks
    have hcount := ha.msgCount
    have hwaits := ha.waits
    split
    next hr =>
      rw [hr] at hacks hcount hwaits
      exact ⟨hcount, hacks, hwaits⟩
    next hr =>
      rw [hr] at hacks hcount hwaits
      exact ⟨hcount, hacks, hwaits⟩

/-- What a call did to the acknowledgements that wait. -/
structure Booked (c : Crypto) (s : Encrypted) (event : MtpEvent) (s' : Encrypted) : Prop where
  acks : event.acked ++ s'.pendingAck = s.pendingAck ++ event.queued
  short : ∀ x ∈ event.written, x.ids.length ≤ 8192
  waits : s.Waits → s'.Waits
  spelled : event.Spelled c

theorem booked_turn (a : Aside) :
    Booked c s (s.turn z w a).1 (s.turn z w a).2 := by
  cases a with
  | processPlaintext plaintext =>
    obtain ⟨_, hacks, hwaits⟩ := processPlaintext_acked (z := z) (w := w) (s := s) plaintext
    refine ⟨?_, nofun, hwaits, trivial⟩
    simpa [MtpEvent.acked, MtpEvent.queued, MtpEvent.written, MtpEvent.outcomes, turn] using hacks
  | onServiceTimeout => exact ⟨(List.append_nil _).symm, nofun, fun h => h, trivial⟩
  | setReceiveUpdates enabled => exact ⟨(List.append_nil _).symm, nofun, fun h => h, trivial⟩
  | setDecodeLimits limits => exact ⟨(List.append_nil _).symm, nofun, fun h => h, trivial⟩
  | setAckBatch count => exact ⟨(List.append_nil _).symm, nofun, fun h => h, trivial⟩

theorem booked_call (op : MtpOp) :
    Booked c s (s.call z g c w op).1 (s.call z g c w op).2 := by
  cases op with
  | aside a => exact booked_turn a
  | push buffer request =>
    rcases h : s.push w g buffer request with ⟨id, s', buffer', written⟩
    have hw := writes_push h
    simp only [call, h]
    refine ⟨?_, hw.short, hw.waits, hw.bytes⟩
    simpa [MtpEvent.acked, MtpEvent.queued, MtpEvent.written, MtpEvent.outcomes] using hw.acks
  | finalize buffer =>
    rcases h : s.finalize w c buffer with ⟨id, s', packet, written⟩
    obtain ⟨s₁, buffer₁, s₂, buffer₂, ha, hp, hs, _, hpacket⟩ := finalize_eq h
    have hw := writes_finalizeAcks ha
    simp only [call, h]
    refine ⟨?_, hw.short, ?_, ?_⟩
    · simpa [MtpEvent.acked, MtpEvent.queued, MtpEvent.written, MtpEvent.outcomes, hs.pendingAck] using hw.acks
    · intro hwait hne
      rw [hs.pendingAckSince]
      exact hw.waits hwait (hs.pendingAck ▸ hne)
    · obtain ⟨header, hheader⟩ := finalizePlain_bytes hp
      rw [hw.bytes] at hheader
      refine ⟨header, ?_⟩
      rw [← hheader]
      rcases hpacket with ⟨hnil, _, hpacket⟩ | ⟨_, _, hpacket⟩
      · exact Or.inl ⟨hnil, hpacket⟩
      · exact Or.inr ⟨_, _, hpacket⟩

theorem run_cons (op : MtpOp) (ops : List MtpOp) : s.run z g c w (op :: ops) =
    ((s.call z g c w op).1 :: ((s.call z g c w op).2.run z g c w ops).1,
      ((s.call z g c w op).2.run z g c w ops).2) := rfl

/-- What calls did to the acknowledgements that wait. -/
theorem run_acks (ops : List MtpOp) : ∀ s : Encrypted,
    (s.run z g c w ops).1.flatMap MtpEvent.acked ++ (s.run z g c w ops).2.pendingAck =
      s.pendingAck ++ (s.run z g c w ops).1.flatMap MtpEvent.queued := by
  induction ops with
  | nil =>
    intro s
    simp [run]
  | cons op ops ih =>
    intro s
    have hb := booked_call (z := z) (g := g) (c := c) (w := w) (s := s) op
    rw [run_cons, List.flatMap_cons, List.flatMap_cons, List.append_assoc, ih, ← List.append_assoc,
      hb.acks, List.append_assoc]

theorem run_booked (ops : List MtpOp) : ∀ s : Encrypted,
    (s.Waits → (s.run z g c w ops).2.Waits) ∧
      ∀ event ∈ (s.run z g c w ops).1,
        (∀ x ∈ event.written, x.ids.length ≤ 8192) ∧ event.Spelled c := by
  induction ops with
  | nil => exact fun s => ⟨fun h => h, fun event he => absurd he List.not_mem_nil⟩
  | cons op ops ih =>
    intro s
    have hb := booked_call (z := z) (g := g) (c := c) (w := w) (s := s) op
    obtain ⟨hwaits, hall⟩ := ih (s.call z g c w op).2
    rw [run_cons]
    refine ⟨fun h => hwaits (hb.waits h), fun event he => ?_⟩
    rcases List.mem_cons.mp he with rfl | he
    · exact ⟨hb.short, hb.spelled⟩
    · exact hall event he

theorem serviceDeadline_of_waits (h : s.Waits) (hne : s.pendingAck ≠ []) :
    ∃ since, s.pendingAckSince = some since ∧ s.serviceDeadline = some (since + ackMaxDelay) := by
  obtain ⟨since, hsince⟩ := Option.ne_none_iff_exists'.mp (h hne)
  exact ⟨since, hsince, by rw [serviceDeadline, hsince, Option.map_some]⟩

/-- However calls are mixed, what was acknowledged and then what waits is what was to be
acknowledged, no message acknowledges too many, and what waits has a deadline. -/
theorem acknowledgements_conserved (b : Builder) (authKey : AuthKey) (sessionId : Int64)
    (ops : List MtpOp) :
    let (events, s) := (b.finish authKey sessionId).run z g c w ops
    events.flatMap MtpEvent.acked ++ s.pendingAck = events.flatMap MtpEvent.queued ∧
      (∀ event ∈ events, event.Spelled c ∧ ∀ x ∈ event.written, x.ids.length ≤ 8192) ∧
      (s.pendingAck ≠ [] →
        ∃ since, s.pendingAckSince = some since ∧ s.serviceDeadline = some (since + ackMaxDelay)) := by
  have hacks := run_acks (z := z) (g := g) (c := c) (w := w) ops
    (b.finish authKey sessionId)
  obtain ⟨hwaits, hall⟩ := run_booked (z := z) (g := g) (c := c) (w := w) ops
    (b.finish authKey sessionId)
  have hstart : (b.finish authKey sessionId).Waits := fun h => absurd rfl h
  have hnone : (b.finish authKey sessionId).pendingAck = [] := rfl
  rw [hnone, List.nil_append] at hacks
  rcases hr : (b.finish authKey sessionId).run z g c w ops with ⟨events, s⟩
  rw [hr] at hacks hwaits hall
  exact ⟨hacks, fun event he => (hall event he).symm, serviceDeadline_of_waits (hwaits hstart)⟩

end Encrypted

end Grammers
