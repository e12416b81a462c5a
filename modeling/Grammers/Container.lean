import Grammers.Packet

namespace Grammers

open Checked CursorReader

namespace Tl

/-! What the bytes before the cursor were, once a value has been read. -/

theorem takes_readSlice (n : Nat) : Takes (readSlice n) fun b taken => taken = b ∧ b.length = n := by
  intro c b c' hc h
  have hlength := length_of_readSlice h
  simp only [readSlice] at h
  split at h
  next hle =>
    rw [slice_ok (Nat.le_add_right _ _) hle] at h
    obtain ⟨rfl, rfl⟩ := EStateM.Result.ok.inj h
    rw [Nat.add_sub_cancel_left] at hlength ⊢
    refine ⟨_, ⟨rfl, hlength⟩, ?_, rfl, by rw [hlength], hle, rfl⟩
    rw [← List.drop_drop, List.take_append_drop]
  next => cases h

theorem takes_word {α : Type} {width : Nat} {decode : Nat → α} (encode : α → Nat)
    (h : ∀ n, n < 256 ^ width → encode (decode n) = n) :
    Takes (do let buffer ← readExact width; pure (decode (LittleEndian.ofBytes buffer)))
      fun x taken => taken = LittleEndian.toBytes width (encode x) := by
  rw [readExact_eq]
  refine (takes_readSlice width).bind fun b taken ⟨htaken, hlength⟩ => Takes.pure ?_
  have hlt := LittleEndian.ofBytes_lt b
  have hread := LittleEndian.toBytes_ofBytes b
  rw [hlength] at hlt hread
  rw [List.append_nil, htaken, h _ hlt, hread]

theorem takes_u32 : Takes deserializeU32 fun x taken => taken = serializeU32 x :=
  takes_word UInt32.toNat fun _ hn => UInt32.toNat_ofNat_of_lt' hn

theorem takes_i32 : Takes deserializeI32 fun x taken => taken = serializeI32 x := by
  refine takes_word (fun x : Int32 => x.toUInt32.toNat) fun n hn => ?_
  rw [Int32.toUInt32_ofNat', UInt32.toNat_ofNat_of_lt' hn]

theorem takes_i64 : Takes deserializeI64 fun x taken => taken = serializeI64 x := by
  refine takes_word (fun x : Int64 => x.toUInt64.toNat) fun n hn => ?_
  rw [Int64.toUInt64_ofNat', UInt64.toNat_ofNat_of_lt' hn]

end Tl

/-- A message of whole words, with a constructor, whose length fits the field it is written in. -/
structure ManualTl.Message.Whole (message : ManualTl.Message) : Prop where
  min : 4 ≤ message.body.length
  words : message.body.length % 4 = 0
  max : message.body.length < 2 ^ 31

theorem ManualTl.Message.takes_deserialize :
    Takes ManualTl.Message.deserialize fun message taken =>
      taken = message.serialize ∧ message.Whole := by
  unfold ManualTl.Message.deserialize
  refine Tl.takes_i64.bind fun msgId bytes h => Tl.takes_i32.bind fun seqNo bytes' h' =>
    Tl.takes_i32.bind fun len bytes'' h'' => ?_
  split
  next => exact Takes.throw
  next hneg =>
    split
    next => exact Takes.throw
    next hwords =>
      refine (Tl.takes_readSlice _).bind fun body taken ⟨htaken, hlength⟩ => Takes.pure ?_
      have hnonneg : 0 ≤ len.toInt := by
        rw [Int32.lt_iff_toInt_lt] at hneg
        exact not_lt.mp hneg
      have hlen : len.toInt = body.length := by
        rw [hlength, Int32.toNatClampNeg, Int.toNat_of_nonneg hnonneg]
      have hmax := len.toInt_lt
      have hwritten : Int32.ofNat body.length = len := by
        rw [← Int32.ofInt_toInt len, hlen]
        rfl
      refine ⟨?_, by simp only; omega, by simp only; omega, by simp only; omega⟩
      simp only [ManualTl.Message.serialize, hwritten, h, h', h'', htaken, List.append_nil]

theorem of_parse {α : Type} {r : Tl.Read α} {c c' : Cursor Nat} {v : α}
    (h : parse r c = .ok (v, c')) : r c = .ok v c' := by
  unfold parse at h
  split at h
  next hr => cases h; exact hr
  next => cases h
  next => cases h

theorem parse_ok {α : Type} {r : Tl.Read α} {c c' : Cursor Nat} {v : α} (h : r c = .ok v c') :
    parse r c = .ok (v, c') := by
  rw [parse, h]

/-- The message that a container came in, by its id and its number, if it is known. -/
abbrev Parent : Type := Option (Int64 × Int32)

def Parent.rejects (parent : Parent) (inner : ManualTl.Message) : Bool :=
  match parent with
  | none => false
  | some (id, _) => inner.msgId ≤ 0 ∨ inner.msgId % 2 ≠ 1 ∨ inner.msgId ≥ id ∨ inner.seqNo < 0

structure MessageIter where
  cursor : Cursor Nat
  remaining : Nat

abbrev MessageIter.Item : Type := Except (Fault Tl.TlError) ManualTl.Message

/-- The cursor stays where a message that is not read fails. -/
def MessageIter.next (iter : MessageIter) : Option (MessageIter.Item × MessageIter) :=
  match iter.remaining with
  | 0 => none
  | remaining + 1 =>
    match ManualTl.Message.deserialize iter.cursor with
    | .ok message cursor => some (.ok message, ⟨cursor, remaining⟩)
    | .error e cursor => some (.error e, ⟨cursor, remaining⟩)

theorem MessageIter.remaining_next {iter : MessageIter} {r : MessageIter.Item × MessageIter}
    (h : iter.next = some r) : r.2.remaining < iter.remaining := by
  unfold MessageIter.next at h
  split at h
  next => cases h
  next remaining hremaining =>
    rw [hremaining]
    split at h
    next => cases h; exact Nat.lt_succ_self _
    next => cases h; exact Nat.lt_succ_self _

/-- All that an iterator yields. -/
def MessageIter.collect (iter : MessageIter) : List MessageIter.Item :=
  match _h : iter.next with
  | none => []
  | some (item, rest) => item :: rest.collect
termination_by iter.remaining
decreasing_by exact MessageIter.remaining_next _h

namespace MessageContainer

/-- Each message is checked before the next is read, and none is kept. -/
def checkInner (parent : Parent) : Nat → Cursor Nat → Parsed (Cursor Nat)
  | 0, check => .ok check
  | n + 1, check => do
    let (inner, check) ← parse ManualTl.Message.deserialize check
    if parent.rejects inner then .error (invalidEnvelope "invalid message envelope")
    else checkInner parent n check

def borrowedMessagesValidated (bytes : Bytes) (parent : Parent) : Parsed MessageIter := do
  let (constructor, cursor) ← parse Tl.deserializeU32 (Tl.fromSlice bytes)
  if constructor ≠ Encrypted.messageContainer then
    .error (.error (.unexpectedConstructor constructor))
  else
    let (count, cursor) ← parse Tl.deserializeI32 cursor
    if count < 0 then .error (invalidEnvelope "invalid message envelope")
    else
      let count := count.toNatClampNeg
      let data := bytes.drop cursor.pos
      if count > 1024 ∨ count > data.length / Message.sizeOverhead then
        .error (invalidEnvelope "invalid message envelope")
      else
        let check ← checkInner parent count (Tl.fromSlice data)
        if check.pos ≠ data.length then .error (invalidEnvelope "invalid message envelope")
        else .ok ⟨Tl.fromSlice data, count⟩

/-- The owned decoder asserts that the count is not negative, and leaves what follows unread. -/
def deserialize : Tl.Read (List ManualTl.Message) := do
  let constructor ← Tl.deserializeU32
  if constructor ≠ Encrypted.messageContainer then
    throw (.error (.unexpectedConstructor constructor))
  else
    let len ← Tl.deserializeI32
    if len < 0 then throw .panic
    else readMany ManualTl.Message.deserialize len.toNatClampNeg

def serialize (messages : List ManualTl.Message) : Bytes :=
  Tl.serializeU32 Encrypted.messageContainer ++
    (Tl.serializeI32 (Int32.ofNat messages.length) ++
      messages.flatMap ManualTl.Message.serialize)

/-- The messages that a container may hold, inside of its parent. -/
structure Valid (parent : Parent) (messages : List ManualTl.Message) : Prop where
  count : messages.length ≤ 1024
  whole : ∀ m ∈ messages, m.Whole
  inner : ∀ id seq, parent = some (id, seq) →
    ∀ m ∈ messages, 0 < m.msgId ∧ m.msgId % 2 = 1 ∧ m.msgId < id ∧ 0 ≤ m.seqNo

variable {parent : Parent} {messages : List ManualTl.Message} {bytes : Bytes}

theorem rejects_eq_false {m : ManualTl.Message} :
    parent.rejects m = false ↔ ∀ id seq, parent = some (id, seq) →
      0 < m.msgId ∧ m.msgId % 2 = 1 ∧ m.msgId < id ∧ 0 ≤ m.seqNo := by
  cases parent with
  | none => simp [Parent.rejects]
  | some parent =>
    obtain ⟨id, seq⟩ := parent
    simp only [Parent.rejects, decide_eq_false_iff_not, not_or, Int64.not_le, not_not,
      Int32.not_lt, ge_iff_le, Option.some.injEq, Prod.mk.injEq, and_imp]
    constructor
    · rintro h _ _ rfl rfl
      exact h
    · intro h
      exact h id seq rfl rfl

/-! What was accepted are the bytes of valid messages. -/

theorem of_checkInner {n : Nat} : ∀ {check check' : Cursor Nat}, check.pos ≤ check.buf.length →
    checkInner parent n check = .ok check' →
    ∃ messages : List ManualTl.Message, messages.length = n ∧ (∀ m ∈ messages, m.Whole) ∧
      (∀ m ∈ messages, parent.rejects m = false) ∧
      check.buf.drop check.pos =
        messages.flatMap ManualTl.Message.serialize ++ check.buf.drop check'.pos ∧
      check'.pos ≤ check.buf.length := by
  induction n with
  | zero =>
    intro check check' hpos h
    cases h
    exact ⟨[], rfl, by simp, by simp, rfl, hpos⟩
  | succ n ih =>
    intro check check' hpos h
    obtain ⟨⟨inner, check₁⟩, hinner, h⟩ := bind_eq_ok h
    simp only at h
    split at h
    next => cases h
    next hvalid =>
      obtain ⟨taken, ⟨rfl, hwhole⟩, hdrop, hbuf, -, hend, -⟩ :=
        ManualTl.Message.takes_deserialize check inner check₁ hpos (of_parse hinner)
      rw [← hbuf] at hend
      obtain ⟨messages, hlength, hwholes, hvalids, hrest, hend'⟩ := ih hend h
      rw [hbuf] at hrest hend'
      refine ⟨inner :: messages, by simp [hlength], ?_, ?_, ?_, hend'⟩
      · exact List.forall_mem_cons.mpr ⟨hwhole, hwholes⟩
      · exact List.forall_mem_cons.mpr ⟨by simpa using hvalid, hvalids⟩
      · rw [hdrop, hrest, List.flatMap_cons, List.append_assoc]

theorem serializeI32_toNatClampNeg {count : Int32} (h : ¬count < 0) :
    Int32.ofNat count.toNatClampNeg = count := by
  have hnonneg : 0 ≤ count.toInt := by
    rw [Int32.lt_iff_toInt_lt] at h
    exact not_lt.mp h
  rw [Int32.toNatClampNeg, ← Int32.ofInt_toInt count, Int32.ofInt_toInt count]
  show Int32.ofInt (count.toInt.toNat : Int) = count
  rw [Int.toNat_of_nonneg hnonneg, Int32.ofInt_toInt]

theorem of_borrowedMessagesValidated {iter : MessageIter}
    (h : borrowedMessagesValidated bytes parent = .ok iter) :
    ∃ messages, Valid parent messages ∧ bytes = serialize messages := by
  obtain ⟨⟨constructor, cursor⟩, hconstructor, h⟩ := bind_eq_ok h
  obtain ⟨taken, rfl, hdrop, hbuf, hpos, hend, -⟩ :=
    Tl.takes_u32 _ _ _ (Nat.zero_le _) (of_parse hconstructor)
  simp only at h
  split at h
  next => cases h
  next hid =>
    obtain ⟨⟨count, cursor'⟩, hcount, h⟩ := bind_eq_ok h
    obtain ⟨taken, rfl, hdrop', hbuf', hpos', hend', -⟩ :=
      Tl.takes_i32 _ _ _ (by rw [hbuf]; exact hend) (of_parse hcount)
    simp only at h
    split at h
    next => cases h
    next hneg =>
      split at h
      next => cases h
      next hlimit =>
        obtain ⟨check, hcheck, h⟩ := bind_eq_ok h
        split at h
        next => cases h
        next hall =>
          obtain ⟨messages, hlength, hwhole, hvalid, hdata, -⟩ :=
            of_checkInner (Nat.zero_le _) hcheck
          rw [not_not] at hall
          rw [not_or] at hlimit
          refine ⟨messages, ⟨by omega, hwhole, fun id seq hparent m hm => ?_⟩, ?_⟩
          · exact rejects_eq_false.mp (hvalid m hm) id seq hparent
          · rw [not_not] at hid
            rw [hbuf] at hdrop'
            change (bytes.drop cursor'.pos).drop 0 =
              _ ++ (bytes.drop cursor'.pos).drop check.pos at hdata
            change bytes.drop 0 = _ ++ bytes.drop cursor.pos at hdrop
            change bytes.drop cursor.pos = _ ++ bytes.drop cursor'.pos at hdrop'
            rw [hall, List.drop_length, List.append_nil, List.drop_zero] at hdata
            rw [List.drop_zero] at hdrop
            rw [hdrop, hdrop', hdata, serialize, hid, hlength, serializeI32_toNatClampNeg hneg]

/-! The bytes of valid messages are accepted, and read in order. -/

theorem decodes_message {m : ManualTl.Message} (h : m.Whole) (pre rest : Bytes) :
    ManualTl.Message.deserialize ⟨pre ++ (m.serialize ++ rest), pre.length, 0⟩ =
      .ok m ⟨pre ++ (m.serialize ++ rest), pre.length + m.serialize.length, 0⟩ :=
  (ManualTl.Message.code_deserialize h.min h.words h.max).decodes pre rest

theorem checkInner_flatMap (messages : List ManualTl.Message) :
    ∀ pre : Bytes, (∀ m ∈ messages, m.Whole) → (∀ m ∈ messages, parent.rejects m = false) →
      checkInner parent messages.length
          ⟨pre ++ messages.flatMap ManualTl.Message.serialize, pre.length, 0⟩ =
        .ok ⟨pre ++ messages.flatMap ManualTl.Message.serialize,
          (pre ++ messages.flatMap ManualTl.Message.serialize).length, 0⟩ := by
  induction messages with
  | nil =>
    intro pre _ _
    simp [checkInner]
  | cons m messages ih =>
    intro pre hwhole hvalid
    obtain ⟨hm, hwhole⟩ := List.forall_mem_cons.mp hwhole
    obtain ⟨hvalidm, hvalid⟩ := List.forall_mem_cons.mp hvalid
    have hrest := ih (pre ++ m.serialize) hwhole hvalid
    rw [List.append_assoc, List.length_append] at hrest
    rw [List.flatMap_cons, List.length_cons, checkInner, parse_ok (decodes_message hm pre _)]
    simp only [Bind.bind, Except.bind, hvalidm, Bool.false_eq_true, ↓reduceIte]
    exact hrest

theorem collect_flatMap (messages : List ManualTl.Message) :
    ∀ pre : Bytes, (∀ m ∈ messages, m.Whole) →
      MessageIter.collect
          ⟨⟨pre ++ messages.flatMap ManualTl.Message.serialize, pre.length, 0⟩, messages.length⟩ =
        messages.map .ok := by
  induction messages with
  | nil =>
    intro pre _
    rw [MessageIter.collect]
    rfl
  | cons m messages ih =>
    intro pre hwhole
    obtain ⟨hm, hwhole⟩ := List.forall_mem_cons.mp hwhole
    have hrest := ih (pre ++ m.serialize) hwhole
    rw [List.append_assoc, List.length_append] at hrest
    have hnext : MessageIter.next
        ⟨⟨pre ++ (m.serialize ++ messages.flatMap ManualTl.Message.serialize), pre.length, 0⟩,
          messages.length + 1⟩ = some (.ok m,
        ⟨⟨pre ++ (m.serialize ++ messages.flatMap ManualTl.Message.serialize),
          pre.length + m.serialize.length, 0⟩, messages.length⟩) := by
      simp only [MessageIter.next, decodes_message hm pre _]
    rw [List.flatMap_cons, List.length_cons, MessageIter.collect]
    split
    next hnone =>
      rw [hnext] at hnone
      cases hnone
    next item rest hsome =>
      rw [hnext] at hsome
      cases hsome
      rw [hrest, List.map_cons]

theorem length_serialize_message (m : ManualTl.Message) : 16 ≤ m.serialize.length := by
  simp [ManualTl.Message.serialize, Tl.serializeI64, Tl.serializeI32]
  omega

theorem length_flatMap_serialize (messages : List ManualTl.Message) :
    16 * messages.length ≤ (messages.flatMap ManualTl.Message.serialize).length := by
  induction messages with
  | nil => simp
  | cons m messages ih =>
    have hfirst := length_serialize_message m
    rw [List.flatMap_cons, List.length_append, List.length_cons]
    omega

theorem length_header (constructor : UInt32) (count : Int32) :
    (Tl.serializeU32 constructor ++ Tl.serializeI32 count).length = 8 := by
  simp [Tl.serializeU32, Tl.serializeI32]

/-- The constructor and the count, in front of the messages. -/
theorem decodes_header (messages : List ManualTl.Message) :
    ∃ cursor, Tl.deserializeU32 (Tl.fromSlice (serialize messages)) =
        .ok Encrypted.messageContainer cursor ∧
      Tl.deserializeI32 cursor =
        .ok (Int32.ofNat messages.length) ⟨serialize messages, 8, 0⟩ := by
  have hconstructor := (Tl.code_u32 (d := 0) Encrypted.messageContainer).decodes []
    (Tl.serializeI32 (Int32.ofNat messages.length) ++
      messages.flatMap ManualTl.Message.serialize)
  have hcount := (Tl.code_i32 (d := 0) (Int32.ofNat messages.length)).decodes
    (Tl.serializeU32 Encrypted.messageContainer) (messages.flatMap ManualTl.Message.serialize)
  rw [← List.length_append, length_header] at hcount
  rw [List.nil_append, List.length_nil, Nat.zero_add] at hconstructor
  exact ⟨_, hconstructor, hcount⟩

theorem drop_serialize (messages : List ManualTl.Message) :
    (serialize messages).drop 8 = messages.flatMap ManualTl.Message.serialize := by
  rw [serialize, ← List.append_assoc]
  exact List.drop_left' (length_header _ _)

theorem Valid.count_lt (h : Valid parent messages) :
    (Int32.ofNat messages.length).toNatClampNeg = messages.length ∧
      ¬Int32.ofNat messages.length < 0 := by
  have hcount := Int32.toInt_ofNat_of_lt (show messages.length < 2 ^ 31 by have := h.count; omega)
  rw [Int32.toNatClampNeg, Int32.lt_iff_toInt_lt, hcount]
  simp

theorem borrowedMessagesValidated_serialize (h : Valid parent messages) :
    borrowedMessagesValidated (serialize messages) parent =
      .ok ⟨Tl.fromSlice (messages.flatMap ManualTl.Message.serialize), messages.length⟩ := by
  obtain ⟨cursor, hconstructor, hcount⟩ := decodes_header messages
  obtain ⟨hclamp, hnonneg⟩ := h.count_lt
  have hlimit : ¬(messages.length > 1024 ∨ messages.length >
      (messages.flatMap ManualTl.Message.serialize).length / Message.sizeOverhead) := by
    have hlength := length_flatMap_serialize messages
    have hcount := h.count
    unfold Message.sizeOverhead
    omega
  have hcheck := checkInner_flatMap messages [] h.whole
    fun m hm => rejects_eq_false.mpr fun id seq hparent => h.inner id seq hparent m hm
  rw [List.nil_append, List.length_nil] at hcheck
  unfold borrowedMessagesValidated
  rw [parse_ok hconstructor]
  simp only [Bind.bind, Except.bind]
  rw [if_neg (not_not.mpr rfl), parse_ok hcount]
  simp only
  rw [if_neg hnonneg, hclamp, drop_serialize, if_neg hlimit, Tl.fromSlice, hcheck]
  exact if_neg (not_not.mpr rfl)

theorem collect_fromSlice (h : Valid parent messages) :
    MessageIter.collect
        ⟨Tl.fromSlice (messages.flatMap ManualTl.Message.serialize), messages.length⟩ =
      messages.map .ok :=
  collect_flatMap messages [] h.whole

theorem deserialize_serialize (h : Valid parent messages) :
    fromBytes deserialize (serialize messages) = .ok messages := by
  have hcode : Code deserialize 0 Tl.eof (serialize messages) messages := by
    obtain ⟨hclamp, hnonneg⟩ := h.count_lt
    unfold deserialize serialize
    refine (Tl.code_u32 _).bind ?_
    rw [if_neg (fun hne => hne rfl)]
    refine (Tl.code_i32 _).bind ?_
    rw [if_neg hnonneg, hclamp]
    exact Code.many fun m hm => ManualTl.Message.code_deserialize (h.whole m hm).min
      (h.whole m hm).words (h.whole m hm).max
  obtain ⟨cursor, hread, -⟩ := Reads.of_code hcode
  rw [fromBytes, parse_ok hread, Except.map]

/-- A container is accepted if it is the bytes of valid messages and nothing else, and what is then
read are these messages. -/
theorem container_acceptance_is_exact (bytes : Bytes) (parent : Parent) :
    ((∃ iter, borrowedMessagesValidated bytes parent = .ok iter) ↔
      ∃ messages, Valid parent messages ∧ bytes = serialize messages) ∧
    (∀ iter, borrowedMessagesValidated bytes parent = .ok iter →
      ∃ messages, bytes = serialize messages ∧ iter.collect = messages.map .ok ∧
        fromBytes deserialize bytes = .ok messages) ∧
    (∀ messages, Valid parent messages →
      ∃ iter, borrowedMessagesValidated (serialize messages) parent = .ok iter ∧
        iter.collect = messages.map .ok) := by
  refine ⟨⟨?_, ?_⟩, ?_, ?_⟩
  · rintro ⟨iter, h⟩
    exact of_borrowedMessagesValidated h
  · rintro ⟨messages, hvalid, rfl⟩
    exact ⟨_, borrowedMessagesValidated_serialize hvalid⟩
  · intro iter h
    obtain ⟨messages, hvalid, rfl⟩ := of_borrowedMessagesValidated h
    rw [borrowedMessagesValidated_serialize hvalid] at h
    cases h
    exact ⟨messages, rfl, collect_fromSlice hvalid, deserialize_serialize hvalid⟩
  · intro messages hvalid
    exact ⟨_, borrowedMessagesValidated_serialize hvalid, collect_fromSlice hvalid⟩

end MessageContainer

end Grammers
