import Grammers.Session

namespace Grammers

open Checked CursorReader

theorem length_zeros32 : (List.replicate 32 (0 : UInt8)).length = 32 := List.length_replicate

/-- A message of whole words reads back as it was written. -/
theorem ManualTl.Message.code_deserialize {message : ManualTl.Message} {d : Nat} (hmin : 4 ≤ message.body.length)
    (hwords : message.body.length % 4 = 0) (hmax : message.body.length < 2 ^ 31) :
    Code ManualTl.Message.deserialize d Tl.eof message.serialize message := by
  have hlen := Int32.toInt_ofNat_of_lt hmax
  have hclamp : (Int32.ofNat message.body.length).toNatClampNeg = message.body.length := by
    rw [Int32.toNatClampNeg, hlen, Int.toNat_natCast]
  have hnonneg : ¬Int32.ofNat message.body.length < 0 := by
    rw [Int32.lt_iff_toInt_lt, hlen]
    simp
  unfold ManualTl.Message.deserialize ManualTl.Message.serialize
  refine (Tl.code_i64 _).bind ((Tl.code_i32 _).bind ((Tl.code_i32 _).bind ?_))
  rw [if_neg hnonneg, if_neg (by rw [hclamp]; omega), hclamp]
  have hbody := (Tl.code_readSlice (d := d) (rfl : message.body.length = message.body.length)).bind
    (f := fun body => pure (⟨message.msgId, message.seqNo, body⟩ : ManualTl.Message)) (Code.pure message)
  rwa [List.append_nil] at hbody

/-- A reader takes all of the bytes for a value. -/
def Reads {α : Type} (r : Tl.Read α) (bytes : Bytes) (v : α) : Prop :=
  ∃ c, r (Tl.fromSlice bytes) = .ok v c ∧ c.pos = bytes.length

theorem Reads.of_code {α : Type} {r : Tl.Read α} {bytes : Bytes} {v : α}
    (h : Code r 0 Tl.eof bytes v) : Reads r bytes v := by
  have hd := h.decodes [] []
  simp only [List.nil_append, List.append_nil, List.length_nil, Nat.zero_add] at hd
  exact ⟨_, hd, rfl⟩

/-- The salt, the session and the message of a packet. -/
def readPacket : Tl.Read (Int64 × Int64 × ManualTl.Message) := do
  let salt ← Tl.deserializeI64
  let sessionId ← Tl.deserializeI64
  let message ← ManualTl.Message.deserialize
  pure (salt, sessionId, message)

/-- The messages of a container, as many as it says. -/
def readContainer : Tl.Read (List ManualTl.Message) := do
  let constructor ← Tl.deserializeU32
  if constructor ≠ Encrypted.messageContainer then
    throw (.error (.unexpectedConstructor constructor))
  else
    let count ← Tl.deserializeI32
    readMany ManualTl.Message.deserialize count.toNatClampNeg

namespace Encrypted

variable {w : World} {g : Bytes → Bytes} {c : Crypto} {s s' : Encrypted} {buffer buffer' : Bytes}

/-- The bytes of a packet before it is encrypted, for the messages it was filled with. -/
structure WellFormed (s : Encrypted) (messages : List ManualTl.Message) (plain : Bytes) : Prop where
  count : 0 < messages.length ∧ messages.length ≤ 100
  words : ∀ m ∈ messages, 4 ≤ m.body.length ∧ m.body.length % 4 = 0
  outer : ∃ outer : ManualTl.Message,
    plain = Tl.serializeI64 s.getCurrentSalt ++ (Tl.serializeI64 s.sessionId ++ outer.serialize) ∧
    Reads readPacket plain (s.getCurrentSalt, s.sessionId, outer) ∧
    outer.body.length % 4 = 0 ∧
    (messages = [outer] ∨ 1 < messages.length ∧ Reads readContainer outer.body messages ∧
      outer.body = Tl.serializeU32 messageContainer ++
        (Tl.serializeI32 (Int32.ofNat messages.length) ++ messages.flatMap ManualTl.Message.serialize))

theorem reads_readPacket {salt sessionId : Int64} {outer : ManualTl.Message} (hmin : 4 ≤ outer.body.length)
    (hwords : outer.body.length % 4 = 0) (hmax : outer.body.length < 2 ^ 31) :
    Reads readPacket (Tl.serializeI64 salt ++ (Tl.serializeI64 sessionId ++ outer.serialize))
      (salt, sessionId, outer) := by
  refine .of_code ((Tl.code_i64 salt).bind ((Tl.code_i64 sessionId).bind ?_))
  have h := (ManualTl.Message.code_deserialize hmin hwords hmax (d := 0)).bind
    (f := fun message => pure (salt, sessionId, message)) (Code.pure (salt, sessionId, outer))
  rwa [List.append_nil] at h

theorem reads_readContainer {messages : List ManualTl.Message} (hcount : messages.length < 2 ^ 31)
    (hwords : ∀ m ∈ messages, 4 ≤ m.body.length ∧ m.body.length % 4 = 0 ∧ m.body.length < 2 ^ 31) :
    Reads readContainer (Tl.serializeU32 messageContainer ++
      (Tl.serializeI32 (Int32.ofNat messages.length) ++ messages.flatMap ManualTl.Message.serialize))
      messages := by
  have hclamp : (Int32.ofNat messages.length).toNatClampNeg = messages.length := by
    rw [Int32.toNatClampNeg, Int32.toInt_ofNat_of_lt hcount, Int.toNat_natCast]
  refine .of_code ((Tl.code_u32 messageContainer).bind ?_)
  rw [if_neg (fun h => h rfl)]
  refine (Tl.code_i32 _).bind ?_
  rw [hclamp]
  exact Code.many fun m hm =>
    ManualTl.Message.code_deserialize (hwords m hm).1 (hwords m hm).2.1 (hwords m hm).2.2

theorem content_eq (written : List Written) :
    content written = (written.map Written.message).flatMap ManualTl.Message.serialize := by
  rw [content, List.flatMap_map]

theorem length_content_mod {written : List Written}
    (hwords : ∀ x ∈ written, 4 ≤ x.message.body.length ∧ x.message.body.length % 4 = 0) :
    (content written).length % 4 = 0 := by
  induction written with
  | nil => rfl
  | cons x xs ih =>
    have hx := hwords x (by simp)
    have hxs := ih fun y hy => hwords y (by simp [hy])
    rw [content, List.flatMap_cons, List.length_append, length_serialize, Message.sizeOverhead]
    rw [content] at hxs
    omega

theorem length_le_content {written : List Written} {x : Written} (hx : x ∈ written) :
    x.message.body.length ≤ (content written).length := by
  induction written with
  | nil => simp at hx
  | cons y ys ih =>
    rw [content, List.flatMap_cons, List.length_append, length_serialize]
    rcases List.mem_cons.mp hx with rfl | hx
    · omega
    · have := ih hx
      rw [content] at this
      omega

/-- What is in a buffer, with the session it is filled for. -/
structure Filled (s : Encrypted) (buffer : Bytes) (written : List Written) : Prop where
  bytes : buffer = content written
  msgCount : s.msgCount = written.length
  count : written.length ≤ MessageContainer.maximumLength
  size : buffer.length ≤ MessageContainer.maximumSize
  words : ∀ x ∈ written, 4 ≤ x.message.body.length ∧ x.message.body.length % 4 = 0

theorem Filled.writes {written more : List Written} (h : Filled s buffer written)
    (hw : Writes s buffer s' buffer' more) : Filled s' buffer' (written ++ more) := by
  have hcount : s'.msgCount = (written ++ more).length := by
    rw [hw.msgCount, h.msgCount, List.length_append]
  refine ⟨by rw [hw.bytes, h.bytes, content_append], hcount, ?_, hw.size h.size, ?_⟩
  · rw [← hcount]
    exact hw.count (by rw [h.msgCount]; exact h.count)
  · intro x hx
    rcases List.mem_append.mp hx with hx | hx
    · exact h.words x hx
    · exact hw.words x hx

theorem maximumSize_eq : MessageContainer.maximumSize = 1044388 := by decide

/-- What is in a buffer becomes one message, or a container of all. -/
theorem wellFormed_finalizePlain {written : List Written} {plain : Bytes}
    (h : Filled s buffer written) (hp : s.finalizePlain w buffer = (s', plain)) :
    written = [] ∧ plain = [] ∨ WellFormed s (written.map Written.message) plain ∧
      plain.length ≤ 40 + MessageContainer.maximumSize := by
  have hsize := h.size
  have hmax := maximumSize_eq
  have hcontent := length_content_mod h.words
  have hwords : ∀ m ∈ written.map Written.message, 4 ≤ m.body.length ∧ m.body.length % 4 = 0 := by
    intro m hm
    obtain ⟨x, hx, rfl⟩ := List.mem_map.mp hm
    exact h.words x hx
  have hshort : ∀ m ∈ written.map Written.message,
      4 ≤ m.body.length ∧ m.body.length % 4 = 0 ∧ m.body.length < 2 ^ 31 := by
    intro m hm
    obtain ⟨x, hx, rfl⟩ := List.mem_map.mp hm
    have hle := length_le_content hx
    rw [← h.bytes] at hle
    exact ⟨(h.words x hx).1, (h.words x hx).2, by omega⟩
  have hcount : (written.map Written.message).length ≤ 100 := by
    rw [List.length_map]
    exact h.count
  unfold finalizePlain at hp
  rw [h.msgCount] at hp
  split at hp
  next hzero =>
    cases hp
    obtain rfl := List.eq_nil_of_length_eq_zero hzero
    exact Or.inl ⟨rfl, h.bytes⟩
  next hnonzero =>
    refine Or.inr ?_
    simp only at hp
    split at hp
    next hmany =>
      obtain ⟨outer, houter⟩ : ∃ outer : ManualTl.Message, outer =
          ⟨(s.getNewMsgId w).1, ((s.getNewMsgId w).2.getSeqNo false).1,
            Tl.serializeU32 messageContainer ++ (Tl.serializeI32 (Int32.ofNat s.msgCount) ++
              buffer)⟩ := ⟨_, rfl⟩
      have hlen : outer.body.length = buffer.length + 8 := by
        rw [houter]
        simp [Tl.serializeU32, Tl.serializeI32]
        omega
      have hplain : plain = Tl.serializeI64 s.getCurrentSalt ++
          (Tl.serializeI64 s.sessionId ++ outer.serialize) := by
        rw [ManualTl.Message.serialize, hlen, houter]
        have hsnd := (congrArg Prod.snd hp).symm
        simp only [List.append_assoc] at hsnd
        exact hsnd
      have hbody : outer.body = Tl.serializeU32 messageContainer ++
          (Tl.serializeI32 (Int32.ofNat (written.map Written.message).length) ++
            (written.map Written.message).flatMap ManualTl.Message.serialize) := by
        rw [houter, List.length_map, ← h.msgCount, ← content_eq, ← h.bytes]
      have hmod : outer.body.length % 4 = 0 := by
        rw [hlen, h.bytes]
        omega
      refine ⟨⟨⟨?_, hcount⟩, hwords, outer, hplain, ?_, hmod, Or.inr ⟨?_, ?_, hbody⟩⟩, ?_⟩
      · rw [List.length_map]
        omega
      · rw [hplain]
        exact reads_readPacket (by omega) hmod (by omega)
      · rw [List.length_map]
        omega
      · rw [hbody]
        exact reads_readContainer (by omega) hshort
      · rw [hplain]
        simp only [List.length_append, length_serialize, Message.sizeOverhead, hlen]
        simp [Tl.serializeI64]
        omega
    next hone =>
      cases hp
      obtain ⟨x, rfl⟩ := List.length_eq_one_iff.mp (by omega : written.length = 1)
      have hx := hshort x.message (by simp)
      have hb : buffer = x.message.serialize := by simpa [content] using h.bytes
      rw [hb, List.append_assoc]
      refine ⟨⟨by simp, hwords, x.message, rfl, ?_, hx.2.1, Or.inl rfl⟩, ?_⟩
      · exact reads_readPacket hx.1 hx.2.1 hx.2.2
      · rw [hb] at hsize
        simp [Tl.serializeI64]
        omega

theorem padding_bounds (len : Nat) :
    12 ≤ determinePaddingV2Length len ∧ determinePaddingV2Length len ≤ 27 ∧
      (len + determinePaddingV2Length len) % 16 = 0 := by
  unfold determinePaddingV2Length
  omega

theorem length_iv (authKey : AuthKey) (msgKey : Bytes) (x : Nat) :
    (calcKey c authKey msgKey x).2.length = 32 := by
  simp [calcKey, c.length_sha256]

/-- A packet: the key it is for, the key of the message, and the encrypted bytes with their
padding. -/
structure Sealed (c : Crypto) (authKey : AuthKey) (plain packet : Bytes) : Prop where
  parts : ∃ msgKey key iv padding : Bytes, msgKey.length = 16 ∧ iv.length = 32 ∧
    12 ≤ padding.length ∧ padding.length ≤ 27 ∧
    packet = authKey.keyId.val ++ (msgKey ++ Ige.encrypt (c.aes256 key) iv (plain ++ padding))
  aligned : (packet.length - 24) % 16 = 0
  header : 24 ≤ packet.length

theorem sealed_encryptDataV2 (authKey : AuthKey) {random : Bytes} (hrandom : random.length = 32)
    (plain : Bytes) : Sealed c authKey plain (encryptDataV2 c authKey random plain) ∧
      (encryptDataV2 c authKey random plain).length ≤ 24 + plain.length + 27 := by
  obtain ⟨hlow, hhigh, hmod⟩ := padding_bounds plain.length
  obtain ⟨padding, hpadding⟩ : ∃ padding,
      padding = random.take (determinePaddingV2Length plain.length) := ⟨_, rfl⟩
  have hlen : padding.length = determinePaddingV2Length plain.length := by
    rw [hpadding, List.length_take]
    omega
  obtain ⟨msgKey, hkey⟩ : ∃ msgKey, msgKey =
      ((c.sha256 ((authKey.data.val.drop 88).take 32 ++ (plain ++ padding))).drop 8).take 16 :=
    ⟨_, rfl⟩
  have hmsgKey : msgKey.length = 16 := by
    rw [hkey]
    simp [c.length_sha256]
  have hpacket : encryptDataV2 c authKey random plain = authKey.keyId.val ++ (msgKey ++
      Ige.encrypt (c.aes256 (calcKey c authKey msgKey 0).1) (calcKey c authKey msgKey 0).2
        (plain ++ padding)) := by
    rw [hkey, hpadding]
    rfl
  have hiv := length_iv (c := c) authKey msgKey 0
  have hsize : (encryptDataV2 c authKey random plain).length =
      24 + (plain.length + padding.length) := by
    rw [hpacket, List.length_append, List.length_append, Ige.length_encrypt hiv, hmsgKey,
      authKey.keyId.property, List.length_append]
    omega
  refine ⟨⟨⟨msgKey, _, _, padding, hmsgKey, hiv, by omega, by omega, hpacket⟩, ?_, ?_⟩, ?_⟩
  · rw [hsize, hlen]
    omega
  · omega
  · omega

/-- What finalizing a buffer makes of the messages that it was filled with. -/
theorem finalize_wellFormed {written acks : List Written} {id : Option MsgId} {packet : Bytes}
    (h : Filled s buffer written) (hf : s.finalize w c buffer = (id, s', packet, acks)) :
    written ++ acks = [] ∧ id = none ∧ packet = [] ∨
      ∃ plain, WellFormed s ((written ++ acks).map Written.message) plain ∧
        Sealed c s.authKey plain packet ∧ packet.length ≤ 0xff000 := by
  obtain ⟨s₁, buffer₁, s₂, plain, ha, hp, hs, _, hpacket⟩ := finalize_eq hf
  have hw := writes_finalizeAcks ha
  have hsetup := hw.setup
  have hsettled := (settles_finalizePlain hp).setup
  simp only [setup, Prod.mk.injEq] at hsetup hsettled
  have hsalt : s₁.getCurrentSalt = s.getCurrentSalt := by
    have hkept := kept_finalizeAcks ha
    simp only [kept, Prod.mk.injEq] at hkept
    rw [getCurrentSalt, hkept.1, getCurrentSalt]
  have hmax := maximumSize_eq
  rcases wellFormed_finalizePlain (h.writes hw) hp with ⟨hnone, hplain⟩ | ⟨hwell, hlen⟩
  · rcases hpacket with ⟨_, hid, hnil⟩ | ⟨hne, _, _⟩
    · exact Or.inl ⟨hnone, hid, hnil⟩
    · exact absurd hplain hne
  · refine Or.inr ⟨plain, ?_⟩
    rcases hpacket with ⟨hnil, _, _⟩ | ⟨_, _, hpacket⟩
    · obtain ⟨outer, hplain, _⟩ := hwell.outer
      rw [hnil] at hplain
      have := congrArg List.length hplain
      simp [Tl.serializeI64] at this
      omega
    · obtain ⟨hsealed, hsize⟩ := sealed_encryptDataV2 (c := c) s₂.authKey
        (w.random s₂.reads).property plain
      rw [← hpacket, hsettled.2.1, hsetup.2.1] at hsealed
      rw [← hpacket] at hsize
      refine ⟨⟨hwell.count, hwell.words, ?_⟩, hsealed, by omega⟩
      rw [← hsalt, ← hsetup.2.2.1]
      exact hwell.outer

end Encrypted

/-- A session, the buffer that its packets are written to, and what was written to it. -/
structure Session where
  mtp : Encrypted
  buffer : Bytes
  written : List Written

/-- A call, where all that write use the same buffer. -/
inductive Turn where
  | aside (a : Aside)
  | push (request : Bytes)
  | finalize

namespace Session

variable (z : Bytes → Inflated) (g : Bytes → Bytes) (c : Crypto) (w : World)

/-- A packet that is finalized leaves the buffer, if only to be sent. -/
def step (s : Session) : Turn → Session
  | .aside a => { s with mtp := (s.mtp.turn z w a).2 }
  | .push request =>
    let (_, mtp, buffer, written) := s.mtp.push w g s.buffer request
    ⟨mtp, buffer, s.written ++ written⟩
  | .finalize =>
    let (_, mtp, _, _) := s.mtp.finalize w c s.buffer
    ⟨mtp, [], []⟩

def steps (s : Session) (turns : List Turn) : Session := turns.foldl (step z g c w) s

def start (mtp : Encrypted) : Session where
  mtp := mtp
  buffer := []
  written := []

variable {z g c w} {s : Session}

theorem msgCount_turn (m : Encrypted) (a : Aside) : (m.turn z w a).2.msgCount = m.msgCount := by
  cases a with
  | processPlaintext plaintext => exact (Encrypted.processPlaintext_acked plaintext).1
  | onServiceTimeout => rfl
  | setReceiveUpdates enabled => rfl
  | setDecodeLimits limits => rfl
  | setAckBatch count => rfl

theorem filled_step (h : s.mtp.Filled s.buffer s.written) (turn : Turn) :
    (s.step z g c w turn).mtp.Filled (s.step z g c w turn).buffer
      (s.step z g c w turn).written := by
  cases turn with
  | aside a => exact ⟨h.bytes, (msgCount_turn s.mtp a).trans h.msgCount, h.count, h.size, h.words⟩
  | push request =>
    rcases hp : s.mtp.push w g s.buffer request with ⟨id, mtp, buffer, written⟩
    simp only [step, hp]
    exact h.writes (Encrypted.writes_push hp)
  | finalize =>
    rcases hf : s.mtp.finalize w c s.buffer with ⟨id, mtp, packet, written⟩
    obtain ⟨_, _, _, _, _, _, hs, _, _⟩ := Encrypted.finalize_eq hf
    simp only [step, hf]
    exact ⟨rfl, hs.msgCount, by simp, by simp, by simp⟩

theorem filled_steps (turns : List Turn) : ∀ s : Session, s.mtp.Filled s.buffer s.written →
    (s.steps z g c w turns).mtp.Filled (s.steps z g c w turns).buffer
      (s.steps z g c w turns).written := by
  induction turns with
  | nil => exact fun s h => h
  | cons turn turns ih => exact fun s h => ih _ (filled_step h turn)

/-- Whatever was done before, the messages written to a buffer since it was empty make a packet
that is well formed and not too long, unless there are none. -/
theorem packet_well_formed (b : Builder) (authKey : AuthKey) (sessionId : Int64)
    (turns : List Turn) :
    let s := (start (b.finish authKey sessionId)).steps z g c w turns
    let (id, _, packet, acks) := s.mtp.finalize w c s.buffer
    s.written ++ acks = [] ∧ id = none ∧ packet = [] ∨
      ∃ plain, Encrypted.WellFormed s.mtp ((s.written ++ acks).map Written.message) plain ∧
        Encrypted.Sealed c s.mtp.authKey plain packet ∧ packet.length ≤ 0xff000 := by
  intro s
  have hstart : (b.finish authKey sessionId).Filled [] [] := ⟨rfl, rfl, by simp, by simp, by simp⟩
  have h : s.mtp.Filled s.buffer s.written := filled_steps turns _ hstart
  clear_value s
  rcases hf : s.mtp.finalize w c s.buffer with ⟨id, mtp, packet, acks⟩
  exact Encrypted.finalize_wellFormed h hf

end Session

end Grammers
