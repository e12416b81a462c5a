import Grammers.Receive

namespace Grammers

open Checked Incremental

variable {μ ε : Type} {crc32 : Bytes → UInt32} {keystream : Nat → UInt8} {k : Consumer μ ε}

namespace Transport

/-- The transport after one more packet, unless its counter is at its end. -/
def advance : Transport → Option Transport
  | .full t =>
    match checkedAdd t.recvSeq 1 with
    | .ok recvSeq => some (.full { t with recvSeq := recvSeq })
    | .error _ => none
  | t => some t

theorem checkedAdd_error {a b : Int32} {e : Fault TransportError} (h : checkedAdd a b = .error e) :
    e = .panic := by
  unfold checkedAdd at h
  split at h
  · cases h
  · exact (Except.error.inj h).symm

/-- A call on a buffer of ordinary length. -/
theorem unpack_cases (t : Transport) {b : Bytes} (h : b.length < 2 ^ 31) :
    t.unpack crc32 b =
      match (t.reader crc32).run b with
      | none => (.error (.error .missingBytes), t)
      | some (.error e) => (.error (.error e), t)
      | some (.ok offset) =>
        match t.advance with
        | some t' => (.ok offset, t')
        | none => (.error .panic, t) := by
  cases t with
  | full t =>
    have hread : t.read crc32 b = awaited ((t.reader crc32).run b) :=
      Full.read_eq b (Full.measured_of_lt h)
    simp only [unpack, Full.unpack, reader, hread, advance]
    rcases (t.reader crc32).run b with _ | e | offset
    · rfl
    · rfl
    · simp only [awaited]
      rcases hadd : checkedAdd t.recvSeq 1 with e | recvSeq
      · obtain rfl := checkedAdd_error hadd
        rfl
      · rfl
  | abridged t =>
    simp only [unpack, Abridged.unpack, reader, Abridged.read_eq, advance]
    rcases Abridged.reader.run b with _ | e | offset <;> rfl
  | intermediate t =>
    simp only [unpack, Intermediate.unpack, reader, Intermediate.read_eq, advance]
    rcases Intermediate.reader.run b with _ | e | offset <;> rfl

theorem Full.check_ne_missing (t : Full) (f : Bytes) :
    t.check crc32 f ≠ .error .missingBytes := by
  simp only [Full.check]
  split
  · simp
  · split <;> simp

theorem Abridged.body_ne_missing {headerLen words : Nat} {b : Bytes} :
    (Abridged.body headerLen words).run b ≠ some (.error .missingBytes) := by
  intro h
  obtain ⟨-, h⟩ := Reader.run_need_some h
  rw [Reader.run_done, Abridged.check] at h
  split at h <;> simp at h

/-- Missing bytes are waited for, not reported. -/
theorem run_ne_missing (t : Transport) (b : Bytes) :
    (t.reader crc32).run b ≠ some (.error .missingBytes) := by
  intro h
  cases t with
  | full t =>
    obtain ⟨-, h⟩ := Reader.run_need_some h
    split at h
    · have herror := Except.error.inj (Option.some.inj h)
      split at herror <;> simp at herror
    · obtain ⟨-, h⟩ := Reader.run_need_some h
      exact Full.check_ne_missing t _ (Option.some.inj h)
  | abridged t =>
    obtain ⟨-, h⟩ := Reader.run_need_some h
    split at h
    · exact Abridged.body_ne_missing h
    · exact Abridged.body_ne_missing (Reader.run_need_some h).2
  | intermediate t =>
    obtain ⟨-, h⟩ := Reader.run_need_some h
    split at h
    · simp at h
    · obtain ⟨-, h⟩ := Reader.run_need_some h
      rw [Reader.run_done, Intermediate.check] at h
      split at h <;> simp at h

theorem run_nil (t : Transport) : (t.reader crc32).run [] = none := by
  cases t <;> rfl

end Transport

def payloadOf (offset : UnpackedOffset) (b : Bytes) : Bytes :=
  (b.drop offset.dataStart).take (offset.dataEnd - offset.dataStart)

theorem payloadOf_append {offset : UnpackedOffset} {b : Bytes} (h : Transport.Inside offset b)
    (rest : Bytes) : payloadOf offset (b ++ rest) = payloadOf offset b := by
  have h1 := h.ordered
  have h2 := h.within
  have h3 := h.bounded
  exact take_drop_append (by omega)

/-- What the decoding of one packet gives, from a transport that has the whole stream. -/
def takePacket (crc32 : Bytes → UInt32) (k : Consumer μ ε) (s : Transport × μ) (b : Bytes) :
    Option (List Bytes × Except (ReadFault ε) ((Transport × μ) × Nat)) :=
  match (s.1.reader crc32).run b with
  | none => none
  | some (.error e) => some ([], .error (.unpack (.fault (.error e))))
  | some (.ok offset) =>
    match s.1.advance with
    | none => some ([], .error (.unpack (.fault .panic)))
    | some t =>
      match (k.deserialize s.2 (payloadOf offset b)).1 with
      | .error e => some ([payloadOf offset b], .error (.deserialize e))
      | .ok m => some ([payloadOf offset b], .ok ((t, m), offset.nextOffset))

/-- The decoding of a stream as a whole. -/
def packets (crc32 : Bytes → UInt32) (k : Consumer μ ε) :
    Taker (Transport × μ) UInt8 Bytes (ReadFault ε) where
  take := takePacket crc32 k
  stable := by
    intro s b r h rest
    unfold takePacket at h ⊢
    rcases hr : (s.1.reader crc32).run b with _ | e | offset
    · simp [hr] at h
    · rw [Reader.run_append hr]
      simpa [hr] using h
    · have hpayload := payloadOf_append (Transport.inside hr) rest
      rw [Reader.run_append hr]
      simp only [hpayload]
      simpa [hr] using h
  advances := by
    intro s b out s' n h
    unfold takePacket at h
    rcases hr : (s.1.reader crc32).run b with _ | e | offset
    · simp [hr] at h
    · simp [hr] at h
    · have hin := Transport.inside hr
      simp only [hr] at h
      split at h
      · simp at h
      · split at h
        · simp at h
        · simp only [Option.some.injEq, Prod.mk.injEq, Except.ok.injEq] at h
          obtain ⟨-, -, rfl⟩ := h
          exact ⟨hin.advances, hin.bounded⟩

/-! What is seen through the cipher. -/

@[simp]
theorem length_xorStream (position : Nat) (b : Bytes) :
    (xorStream keystream position b).length = b.length := by
  induction b generalizing position with
  | nil => rfl
  | cons x b ih => simp [xorStream, ih]

theorem xorStream_append (position : Nat) (a b : Bytes) :
    xorStream keystream position (a ++ b) =
      xorStream keystream position a ++ xorStream keystream (position + a.length) b := by
  induction a generalizing position with
  | nil => simp [xorStream]
  | cons x a ih =>
    simp only [List.cons_append, xorStream, ih, List.length_cons]
    rw [show position + 1 + a.length = position + (a.length + 1) by omega]

namespace Conn

def transport : Conn → Transport
  | .plain t => t
  | .obfuscated o => o.inner

/-- Bytes of the stream from a position on, as they were before the cipher. -/
def plaintext (keystream : Nat → UInt8) : Conn → Nat → Bytes → Bytes
  | .plain _, _, b => b
  | .obfuscated _, position, b => xorStream keystream position b

/-- A window whose first bytes have been decrypted, and that ends where the cipher stands once
the others have been. -/
def Decrypted : Conn → Nat → Nat → Prop
  | .plain _, _, _ => True
  | .obfuscated o, decrypted, position => o.decryptTail = decrypted ∧ o.position = position

theorem length_plaintext (c : Conn) (position : Nat) (b : Bytes) :
    (c.plaintext keystream position b).length = b.length := by
  cases c <;> simp [plaintext]

theorem plaintext_append (c : Conn) (position : Nat) (a b : Bytes) :
    c.plaintext keystream position (a ++ b) =
      c.plaintext keystream position a ++ c.plaintext keystream (position + a.length) b := by
  cases c with
  | plain t => rfl
  | obfuscated o => exact xorStream_append position a b

/-- Connections that differ only in what they have counted. -/
def Same : Conn → Conn → Prop
  | .plain _, .plain _ => True
  | .obfuscated _, .obfuscated _ => True
  | _, _ => False

variable (keystream) in
theorem Same.plaintext {c c' : Conn} (h : c.Same c') (position : Nat) (b : Bytes) :
    c'.plaintext keystream position b = c.plaintext keystream position b := by
  cases c <;> cases c' <;> first | rfl | trivial

theorem Same.refl (c : Conn) : c.Same c := by
  cases c <;> trivial

theorem Same.trans {c c' c'' : Conn} (h : c.Same c') (h' : c'.Same c'') : c.Same c'' := by
  cases c <;> cases c' <;> cases c'' <;> trivial

end Conn

/-- What unpacking the plaintext of a window comes to. -/
inductive Unpacked (crc32 : Bytes → UInt32) (t : Transport) (b : Bytes) :
    Except UnpackFault UnpackedOffset → Transport → Nat → Prop where
  | missing (run : (t.reader crc32).run b = none) :
      Unpacked crc32 t b (.error (.fault (.error .missingBytes))) t b.length
  | failed {e : TransportError} (run : (t.reader crc32).run b = some (.error e)) :
      Unpacked crc32 t b (.error (.fault (.error e))) t b.length
  | overflow {offset : UnpackedOffset} (run : (t.reader crc32).run b = some (.ok offset))
      (full : t.advance = none) : Unpacked crc32 t b (.error (.fault .panic)) t b.length
  | taken {offset : UnpackedOffset} {t' : Transport}
      (run : (t.reader crc32).run b = some (.ok offset)) (next : t.advance = some t') :
      Unpacked crc32 t b (.ok offset) t' (b.length - offset.nextOffset)

variable (crc32) in
theorem Transport.unpack_plain (t : Transport) {b : Bytes} (h : b.length < 2 ^ 31) :
    ∃ result t' left, t.unpack crc32 b = (result, t') ∧
      Unpacked crc32 t b (result.mapError .fault) t' left ∧
        left = result.toOption.elim b.length (b.length - ·.nextOffset) := by
  rw [t.unpack_cases h]
  rcases hr : (t.reader crc32).run b with _ | e | offset
  · exact ⟨_, _, _, rfl, .missing hr, rfl⟩
  · exact ⟨_, _, _, rfl, .failed hr, rfl⟩
  · rcases ha : t.advance with _ | t'
    · exact ⟨_, _, _, rfl, .overflow hr ha, rfl⟩
    · exact ⟨_, _, _, rfl, .taken hr ha, rfl⟩

variable (crc32 keystream) in
/-- Unpacking decrypts what is new in the window, and then takes what the transport takes. -/
theorem Conn.unpack_window (c : Conn) {position : Nat} {pending new : Bytes}
    (hc : c.Decrypted pending.length position) (hlen : (pending ++ new).length < 2 ^ 31) :
    ∃ result c' left, c.unpack crc32 keystream (pending ++ new) =
        (result, c', pending ++ c.plaintext keystream position new) ∧ c.Same c' ∧
      Unpacked crc32 c.transport (pending ++ c.plaintext keystream position new) result
        c'.transport left ∧ c'.Decrypted left (position + new.length) := by
  obtain ⟨b, hb⟩ : ∃ b, b = pending ++ c.plaintext keystream position new := ⟨_, rfl⟩
  have hblen : b.length = (pending ++ new).length := by simp [hb, c.length_plaintext]
  obtain ⟨result, t', left, hunpack, hout, hleft⟩ :=
    c.transport.unpack_plain crc32 (by omega : b.length < 2 ^ 31)
  rw [← hb]
  cases c with
  | plain t =>
    subst hb
    refine ⟨_, .plain t', left, ?_, trivial, hout, trivial⟩
    simp only [transport] at hunpack
    simp only [Conn.unpack, plaintext] at hunpack ⊢
    rw [hunpack]
  | obfuscated o =>
    obtain ⟨htail, hposition⟩ := hc
    have hge : ¬(pending ++ new).length < o.decryptTail := by simp [htail]
    have htake : (pending ++ new).take o.decryptTail = pending := by rw [htail, List.take_left]
    have hdrop : (pending ++ new).drop o.decryptTail = new := by rw [htail, List.drop_left]
    have hbuffer : pending ++ xorStream keystream o.position new = b := by
      rw [hb, hposition]
      rfl
    simp only [transport] at hunpack
    cases result with
    | error e =>
      refine ⟨.error (.fault e), .obfuscated ⟨t', b.length, o.position + new.length⟩, left, ?_,
        trivial, hout, hleft.symm, by rw [hposition]⟩
      simp only [Conn.unpack, Obfuscated.unpack, hge, htake, hdrop, hbuffer, hunpack, ↓reduceIte]
    | ok offset =>
      have hsub : sub (ε := TransportError) b.length offset.nextOffset =
          .ok (b.length - offset.nextOffset) := by
        cases hout with
        | taken hrun hnext => exact sub_ok (Transport.inside hrun).bounded
      refine ⟨.ok offset, .obfuscated ⟨t', b.length - offset.nextOffset, o.position + new.length⟩,
        left, ?_, trivial, hout, hleft.symm, by rw [hposition]⟩
      simp only [Conn.unpack, Obfuscated.unpack, hge, htake, hdrop, hbuffer, hunpack, hsub,
        ↓reduceIte]

/-! Windows of a buffer. -/

def window (b : Bytes) (lo hi : Nat) : Bytes := (b.drop lo).take (hi - lo)

theorem slice_window {b : Bytes} {lo hi : Nat} (hlo : lo ≤ hi) (hhi : hi ≤ b.length) :
    slice (ε := ε) b lo hi = .ok (window b lo hi) :=
  slice_ok hlo hhi

theorem length_window {b : Bytes} {lo hi : Nat} (hhi : hi ≤ b.length) :
    (window b lo hi).length = hi - lo := by
  simp [window]
  omega

theorem length_overwrite {b w : Bytes} {start : Nat} (h : start + w.length ≤ b.length) :
    (overwrite b start w).length = b.length := by
  simp [overwrite]
  omega

theorem window_overwrite {b w : Bytes} {start : Nat} (h : start + w.length ≤ b.length) :
    window (overwrite b start w) start (start + w.length) = w := by
  have hstart : (b.take start).length = start := by simp; omega
  rw [window, overwrite, List.drop_left' hstart, Nat.add_sub_cancel_left, List.take_left]

theorem window_overwrite_after {b w : Bytes} {start lo hi : Nat} (h : start + w.length ≤ b.length)
    (hlo : start + w.length ≤ lo) : window (overwrite b start w) lo hi = window b lo hi := by
  have hfront : (b.take start ++ w).length = start + w.length := by simp; omega
  have hdrop : (overwrite b start w).drop lo = b.drop lo := by
    obtain ⟨i, rfl⟩ := Nat.exists_eq_add_of_le hlo
    rw [overwrite, ← List.append_assoc, ← List.drop_drop, List.drop_left' hfront, List.drop_drop]
  rw [window, hdrop, window]

theorem window_window {b : Bytes} {lo hi i j : Nat} (hj : j ≤ hi - lo) :
    window (window b lo hi) i j = window b (lo + i) (lo + j) := by
  simp only [window, List.drop_take, List.drop_drop, List.take_take]
  congr 1
  omega

theorem window_from (b : Bytes) (lo hi n : Nat) :
    (window b lo hi).drop n = window b (lo + n) hi := by
  simp only [window, List.drop_take, List.drop_drop]
  congr 1
  omega

namespace Receive

/-- What the loop leaves: the transport, the decoder and the rest of the stream. -/
structure Left (s s' : Receive μ) (next position : Nat) (t : Transport) (m : μ) (left : Bytes) :
    Prop where
  transport : s'.conn.transport = t
  mtp : s'.mtp = m
  same : s.conn.Same s'.conn
  decrypted : s'.conn.Decrypted left.length position
  tail : s'.readTail = s.readTail
  length : s'.readBuffer.length = s.readBuffer.length
  next_le : next ≤ s.readTail
  rest : window s'.readBuffer next s.readTail = left

/-- The loop decodes what is in its window as a stream. -/
structure Decodes (s : Receive μ) (position : Nat)
    (d : List Bytes × Except (ReadFault ε) ((Transport × μ) × Bytes))
    (r : List Bytes × Except (ReadFault ε) (Receive μ × Nat)) : Prop where
  payloads : r.1 = d.1
  failed : ∀ e, d.2 = .error e → r.2 = .error e
  left : ∀ t m left, d.2 = .ok ((t, m), left) →
    ∃ s' next, r.2 = .ok (s', next) ∧ Left s s' next position t m left

theorem plaintext_nil (c : Conn) (position : Nat) : c.plaintext keystream position [] = [] := by
  cases c <;> rfl

theorem Decodes.error {s : Receive μ} {position : Nat} {payloads : List Bytes} {f : ReadFault ε} :
    Decodes s position (payloads, .error f) (payloads, .error f) := by
  refine ⟨rfl, fun e he => ?_, fun t m left h => ?_⟩
  · exact congrArg Except.error (Except.error.inj he)
  · simp at h

theorem Decodes.ok {s s' : Receive μ} {next position : Nat} {t : Transport} {m : μ} {left : Bytes}
    (h : Left s s' next position t m left) :
    Decodes (ε := ε) s position ([], .ok ((t, m), left)) ([], .ok (s', next)) := by
  refine ⟨rfl, fun e he => by simp at he, fun t' m' left' heq => ⟨s', next, rfl, ?_⟩⟩
  obtain ⟨htm, rfl⟩ := Prod.mk.inj (Except.ok.inj heq)
  obtain ⟨rfl, rfl⟩ := Prod.mk.inj htm
  exact h

theorem Decodes.cons {s s1 : Receive μ} {position : Nat} {payload : Bytes}
    {d : List Bytes × Except (ReadFault ε) ((Transport × μ) × Bytes)}
    {r : List Bytes × Except (ReadFault ε) (Receive μ × Nat)} (h : Decodes s1 position d r)
    (htail : s1.readTail = s.readTail) (hlen : s1.readBuffer.length = s.readBuffer.length)
    (hsame : s.conn.Same s1.conn) :
    Decodes s position ([payload] ++ d.1, d.2) (payload :: r.1, r.2) := by
  refine ⟨by simp [h.payloads], h.failed, fun t m left heq => ?_⟩
  obtain ⟨s', next, hr, hleft⟩ := h.left t m left heq
  refine ⟨s', next, hr, ⟨hleft.transport, hleft.mtp, hsame.trans hleft.same, hleft.decrypted,
    hleft.tail.trans htail, hleft.length.trans hlen, htail ▸ hleft.next_le, ?_⟩⟩
  rw [← htail]
  exact hleft.rest

variable (crc32 keystream k) in
theorem unpackLoop_decodes (fuel : Nat) {s : Receive μ} {next position : Nat} {pending new : Bytes}
    (hnext : next ≤ s.readTail) (htail : s.readTail ≤ s.readBuffer.length)
    (hlimit : s.readTail < 2 ^ 31) (hwindow : window s.readBuffer next s.readTail = pending ++ new)
    (hdecrypted : s.conn.Decrypted pending.length position)
    (hfuel : (pending ++ new).length < fuel) :
    Decodes s (position + new.length)
      ((packets crc32 k).drainAll (s.conn.transport, s.mtp)
        (pending ++ s.conn.plaintext keystream position new))
      (unpackLoop crc32 keystream k fuel s next) := by
  induction fuel generalizing s next position pending new with
  | zero => omega
  | succ fuel ih =>
    have hlen : (pending ++ new).length = s.readTail - next := by
      rw [← hwindow, length_window htail]
    by_cases hend : next = s.readTail
    · -- The window is empty, and so is what is left of the stream.
      have hnil : pending = [] ∧ new = [] := by
        rw [hend, Nat.sub_self] at hlen
        simpa using hlen
      obtain ⟨rfl, rfl⟩ := hnil
      have hnone : (packets crc32 k).take (s.conn.transport, s.mtp) [] = none := by
        show takePacket crc32 k _ [] = none
        simp [takePacket, Transport.run_nil]
      simp only [plaintext_nil, List.append_nil, Taker.drainAll_none hnone, unpackLoop, hend,
        ↓reduceIte, List.length_nil, Nat.add_zero]
      exact .ok ⟨rfl, rfl, .refl _, hdecrypted, rfl, rfl, le_rfl, hend ▸ hwindow⟩
    obtain ⟨result, c', left, hunpack, hsame, hout, hdecrypted'⟩ :=
      s.conn.unpack_window crc32 keystream hdecrypted
        (show (pending ++ new).length < 2 ^ 31 by omega)
    obtain ⟨b, hb⟩ : ∃ b, b = pending ++ s.conn.plaintext keystream position new := ⟨_, rfl⟩
    have hblen : b.length = s.readTail - next := by
      rw [hb, List.length_append, Conn.length_plaintext, ← List.length_append, hlen]
    rw [← hb] at hunpack hout ⊢
    obtain ⟨buffer, hbuffer⟩ : ∃ buffer, buffer = overwrite s.readBuffer next b := ⟨_, rfl⟩
    have hroom : next + b.length ≤ s.readBuffer.length := by omega
    have hblen1 : buffer.length = s.readBuffer.length := by rw [hbuffer, length_overwrite hroom]
    have hwindow1 : window buffer next s.readTail = b := by
      rw [hbuffer, show s.readTail = next + b.length by omega]
      exact window_overwrite hroom
    simp only [unpackLoop, hend, ↓reduceIte, slice_window hnext htail, hwindow, hunpack, ← hbuffer]
    generalize htransport : c'.transport = t1 at hout
    cases hout with
    | missing hrun =>
      have hnone : (packets crc32 k).take (s.conn.transport, s.mtp) b = none := by
        show takePacket crc32 k _ b = none
        simp [takePacket, hrun]
      rw [Taker.drainAll_none hnone]
      exact .ok ⟨htransport, rfl, hsame, hdecrypted', rfl, hblen1, hnext, hwindow1⟩
    | @failed e hrun =>
      have hfail : (packets crc32 k).take (s.conn.transport, s.mtp) b =
          some ([], .error (.unpack (.fault (.error e)))) := by
        show takePacket crc32 k _ b = _
        simp [takePacket, hrun]
      rw [Taker.drainAll_error hfail]
      cases e with
      | missingBytes => exact absurd hrun (Transport.run_ne_missing _ b)
      | _ => exact .error
    | overflow hrun hfull =>
      have hfail : (packets crc32 k).take (s.conn.transport, s.mtp) b =
          some ([], .error (.unpack (.fault .panic))) := by
        show takePacket crc32 k _ b = _
        simp [takePacket, hrun, hfull]
      rw [Taker.drainAll_error hfail]
      exact .error
    | @taken offset _ hrun hadvance =>
      have hin := Transport.inside hrun
      have hordered := hin.ordered
      have hwithin := hin.within
      have hbounded := hin.bounded
      have hadvances := hin.advances
      have hpayload : window buffer (next + offset.dataStart) (next + offset.dataEnd) =
          payloadOf offset b := by
        rw [← window_window (show offset.dataEnd ≤ s.readTail - next by omega), hwindow1]
        rfl
      have hslice : slice (ε := ε) buffer (next + offset.dataStart) (next + offset.dataEnd) =
          .ok (payloadOf offset b) := by
        rw [slice_window (by omega) (by omega), hpayload]
      have hdecoded : (k.deserialize s.mtp (payloadOf offset b)).2.length =
          offset.dataEnd - offset.dataStart := by
        rw [k.inPlace, ← hpayload, length_window (by omega)]
        omega
      simp only [hslice]
      rcases hresult : (k.deserialize s.mtp (payloadOf offset b)).1 with e | m
      · have hfail : (packets crc32 k).take (s.conn.transport, s.mtp) b =
            some ([payloadOf offset b], .error (.deserialize e)) := by
          show takePacket crc32 k _ b = _
          simp [takePacket, hrun, hadvance, hresult]
        rw [Taker.drainAll_error hfail]
        exact .error
      · have htake : (packets crc32 k).take (s.conn.transport, s.mtp) b =
            some ([payloadOf offset b], .ok ((t1, m), offset.nextOffset)) := by
          show takePacket crc32 k _ b = _
          simp [takePacket, hrun, hadvance, hresult]
        rw [Taker.drainAll_ok htake]
        -- Decoding in place touches only the packet that has been taken.
        obtain ⟨decoded, hbytes⟩ : ∃ decoded, decoded = (k.deserialize s.mtp (payloadOf offset b)).2 :=
          ⟨_, rfl⟩
        rw [← hbytes] at hdecoded ⊢
        have hroom' : next + offset.dataStart + decoded.length ≤ buffer.length := by omega
        have hrest : window (overwrite buffer (next + offset.dataStart) decoded)
            (next + offset.nextOffset) s.readTail = b.drop offset.nextOffset ++ [] := by
          rw [window_overwrite_after hroom' (by omega), ← window_from, hwindow1, List.append_nil]
        have hih := ih (s := ⟨c', m, overwrite buffer (next + offset.dataStart) decoded, s.readTail,
            s.lastLargeTransfer⟩)
          (by show next + offset.nextOffset ≤ s.readTail; omega)
          (by show s.readTail ≤ _; rw [length_overwrite hroom']; omega) hlimit hrest
          (by rw [List.length_drop]; exact hdecrypted')
          (by simp only [List.append_nil, List.length_drop]; omega)
        simp only [plaintext_nil, List.append_nil, htransport, List.length_nil, Nat.add_zero] at hih
        refine hih.cons rfl ?_ hsame
        show (overwrite buffer _ decoded).length = _
        rw [length_overwrite hroom', hblen1]

/-! The buffer between reads. -/

theorem length_resize {b : Bytes} {n : Nat} (h : b.length ≤ n) : (resize b n).length = n := by
  simp [resize]
  omega

theorem window_resize {b : Bytes} {n hi : Nat} (h : b.length ≤ n) (hhi : hi ≤ b.length) :
    window (resize b n) 0 hi = window b 0 hi := by
  simp only [window, resize, List.drop_zero, Nat.sub_zero, List.take_of_length_le h]
  exact List.take_append_of_le_length hhi

variable (crc32 k) in
/-- What the receiving side holds: the front of its buffer is what is left of the stream. -/
structure Holds (s : Receive μ) (t : Transport) (m : μ) (pending : Bytes) (total : Nat) : Prop where
  transport : s.conn.transport = t
  mtp : s.mtp = m
  decrypted : s.conn.Decrypted pending.length total
  tail : s.readTail ≤ s.readBuffer.length
  front : window s.readBuffer 0 s.readTail = pending
  grown : initialReadBufferSize ≤ s.readBuffer.length
  bounded : s.readBuffer.length ≤ maximumData
  waiting : (packets crc32 k).take (t, m) pending = none

variable {s : Receive μ} {t : Transport} {m : μ} {pending : Bytes} {total : Nat}

theorem Holds.length (h : Holds crc32 k s t m pending total) : pending.length = s.readTail := by
  rw [← h.front, length_window h.tail, Nat.sub_zero]

theorem Holds.release (h : Holds crc32 k s t m pending total) (used : Nat) (filled : Bool)
    (now : Nat) : Holds crc32 k (s.releaseIdleBuffers used filled now) t m pending total ∧
      (s.releaseIdleBuffers used filled now).conn = s.conn := by
  unfold releaseIdleBuffers
  split
  · exact ⟨⟨h.transport, h.mtp, h.decrypted, h.tail, h.front, h.grown, h.bounded, h.waiting⟩, rfl⟩
  · split
    · split
      next hidle =>
        -- Only an empty buffer is replaced.
        have hempty : pending = [] := List.length_eq_zero_iff.mp (h.length.trans hidle.1)
        refine ⟨⟨h.transport, h.mtp, h.decrypted, ?_, ?_, ?_, ?_, h.waiting⟩, rfl⟩
        · simp [hidle.1]
        · simp [hidle.1, hempty, window]
        · rw [List.length_replicate]
        · rw [List.length_replicate]
          decide
      next => exact ⟨h, rfl⟩
    · exact ⟨h, rfl⟩

/-- A larger buffer holds the same. -/
theorem Holds.grow (h : Holds crc32 k s t m pending total) {n : Nat}
    (hle : s.readBuffer.length ≤ n) (hn : n ≤ maximumData) (now : Nat) :
    Holds crc32 k { s with readBuffer := resize s.readBuffer n, lastLargeTransfer := now } t m pending
      total := by
  refine ⟨h.transport, h.mtp, h.decrypted, ?_, ?_, ?_, ?_, h.waiting⟩
  · rw [length_resize hle]
    exact h.tail.trans hle
  · rw [← h.front]
    exact window_resize hle h.tail
  · rw [length_resize hle]
    exact h.grown.trans hle
  · rw [length_resize hle]
    exact hn

/-- A packet of allowed length never fills the buffer without being complete. -/
theorem Holds.prepare (h : Holds crc32 k s t m pending total)
    (hwithin : (t.reader crc32).Within maximumData pending) :
    ∃ s', s.prepareReadBuffer = (.ok s' : Except (ReadFault ε) _) ∧
      Holds crc32 k s' t m pending total ∧ s'.conn = s.conn := by
  unfold prepareReadBuffer
  split
  next hfull =>
    have hlen := h.length
    have hnot : ¬s.readTail ≥ maximumData := by
      intro hge
      have hrun := hwithin.run_ne_none (by omega)
      have hnone : takePacket crc32 k (t, m) pending = none := h.waiting
      unfold takePacket at hnone
      split at hnone
      next hrun' => exact hrun hrun'
      next => simp at hnone
      next =>
        split at hnone
        · simp at hnone
        · split at hnone <;> simp at hnone
    have hle : s.readBuffer.length ≤ min (s.readBuffer.length * 2) maximumData :=
      le_min (by omega) h.bounded
    rw [if_neg hnot]
    exact ⟨_, rfl, h.grow hle (min_le_right _ _) s.lastLargeTransfer, rfl⟩
  next => exact ⟨s, rfl, h, rfl⟩

theorem Left.compact {s s' : Receive μ} {next position : Nat} {left : Bytes}
    (h : Left s s' next position t m left) (htail : s.readTail ≤ s.readBuffer.length)
    (hgrown : initialReadBufferSize ≤ s.readBuffer.length)
    (hbounded : s.readBuffer.length ≤ maximumData)
    (hwaiting : (packets crc32 k).take (t, m) left = none) (filled : Bool) (now : Nat) :
    Holds crc32 k (s'.compact next filled now) t m left position ∧
      (s'.compact next filled now).conn = s'.conn := by
  have hnext := h.next_le
  have hlength := h.length
  have hstail := h.tail
  have hleft : (s'.readBuffer.take s'.readTail).drop next = left := by
    rw [← h.rest, window, List.drop_take, hstail]
  have hleftLen : left.length = s'.readTail - next := by
    rw [← h.rest, length_window (by omega), hstail]
  have hroom : 0 + left.length ≤ s'.readBuffer.length := by omega
  have hmoved : (s'.moveToFront next).readBuffer = overwrite s'.readBuffer 0 left := by
    rw [moveToFront, hleft]
  have hmovedLen : (s'.moveToFront next).readBuffer.length = s.readBuffer.length := by
    rw [hmoved, length_overwrite hroom, hlength]
  have hmovedTail : (s'.moveToFront next).readTail = left.length := hleftLen.symm
  have hholds : Holds crc32 k (s'.moveToFront next) t m left position := by
    refine ⟨h.transport, h.mtp, h.decrypted, by omega, ?_, by omega, by omega, hwaiting⟩
    rw [hmoved, hmovedTail]
    simpa using window_overwrite hroom
  unfold Receive.compact
  dsimp only
  split
  next hgrow =>
    have hle : (s'.moveToFront next).readBuffer.length ≤
        min ((s'.moveToFront next).readBuffer.length * 2) busyReadBufferSize :=
      le_min (by omega) hgrow.2.le
    have hbusy : busyReadBufferSize ≤ maximumData := by decide
    exact ⟨hholds.grow hle ((min_le_right _ _).trans hbusy) now, rfl⟩
  next => exact hholds.release s'.readTail filled now

variable (crc32 k) in
/-- A run ends as the decoding of the stream ends, and holds what that leaves. -/
structure Follows (s : Receive μ) (total : Nat)
    (d : List Bytes × Except (ReadFault ε) ((Transport × μ) × Bytes))
    (r : List Bytes × Except (ReadFault ε) (Receive μ)) : Prop where
  payloads : r.1 = d.1
  failed : ∀ e, d.2 = .error e → r.2 = .error e
  holds : ∀ t m left, d.2 = .ok ((t, m), left) →
    ∃ s', r.2 = .ok s' ∧ Holds crc32 k s' t m left total ∧ s.conn.Same s'.conn

theorem Follows.of_ok {s' : Receive μ} {left : Bytes} (h : Holds crc32 k s' t m left total)
    (hsame : s.conn.Same s'.conn) :
    Follows crc32 k s total ([], .ok ((t, m), left)) ([], .ok s') := by
  refine ⟨rfl, fun e he => by simp at he, fun t' m' left' heq => ⟨s', rfl, ?_, hsame⟩⟩
  obtain ⟨htm, rfl⟩ := Prod.mk.inj (Except.ok.inj heq)
  obtain ⟨rfl, rfl⟩ := Prod.mk.inj htm
  exact h

theorem Holds.onNetRead (h : Holds crc32 k s t m pending total) {bytes : Bytes}
    (hne : bytes ≠ []) (hfits : s.readTail + bytes.length ≤ s.readBuffer.length) (now : Nat) :
    Follows crc32 k s (total + bytes.length)
      ((packets crc32 k).drainAll (t, m) (pending ++ s.conn.plaintext keystream total bytes))
      (onNetRead crc32 keystream k
        { s with readBuffer := overwrite s.readBuffer s.readTail bytes } bytes.length now) := by
  have hn : bytes.length ≠ 0 := fun hzero => hne (List.length_eq_zero_iff.mp hzero)
  have hlen := h.length
  have hbounded := h.bounded
  have hmax : maximumData < 2 ^ 31 := by decide
  have hbuffer : (overwrite s.readBuffer s.readTail bytes).length = s.readBuffer.length :=
    length_overwrite hfits
  have hwindow : window (overwrite s.readBuffer s.readTail bytes) 0 (s.readTail + bytes.length) =
      pending ++ bytes := by
    have hfront : (s.readBuffer.take s.readTail).length = s.readTail := by
      have := h.tail
      simp
      omega
    have hpending : s.readBuffer.take s.readTail = pending := by
      rw [← h.front, window, List.drop_zero, Nat.sub_zero]
    rw [window, overwrite, List.drop_zero, Nat.sub_zero, ← List.append_assoc,
      List.take_left' (by simp; omega), hpending]
  obtain rfl := h.transport
  obtain rfl := h.mtp
  have hroom : s.readTail + bytes.length ≤ (overwrite s.readBuffer s.readTail bytes).length := by
    omega
  have hloop := unpackLoop_decodes crc32 keystream k (s.readTail + bytes.length + 1)
    (s := ⟨s.conn, s.mtp, overwrite s.readBuffer s.readTail bytes, s.readTail + bytes.length,
      s.lastLargeTransfer⟩) (Nat.zero_le _) hroom
    (show s.readTail + bytes.length < 2 ^ 31 by omega) hwindow h.decrypted (by simp; omega)
  simp only [Receive.onNetRead, hn, ↓reduceIte]
  generalize unpackLoop crc32 keystream k _ _ 0 = r at hloop ⊢
  obtain ⟨payloads, result⟩ := r
  obtain ⟨hpayloads, hfailed, hleft⟩ := hloop
  generalize hd : (packets crc32 k).drainAll (s.conn.transport, s.mtp)
    (pending ++ s.conn.plaintext keystream total bytes) = d at hpayloads hfailed hleft ⊢
  obtain ⟨dpayloads, e | ⟨⟨t', m'⟩, left⟩⟩ := d
  · obtain rfl := hfailed e rfl
    exact ⟨hpayloads, fun e' he => by rw [Except.error.inj he], fun _ _ _ heq => by simp at heq⟩
  · obtain ⟨s', next, rfl, hend⟩ := hleft t' m' left rfl
    have hwaiting := Taker.take_left_of_drainAll hd
    obtain ⟨hholds, hconn⟩ := hend.compact hroom (h.grown.trans hbuffer.ge)
      (hbuffer.le.trans h.bounded) hwaiting
      (decide (s.readTail + bytes.length = (overwrite s.readBuffer s.readTail bytes).length)) now
    refine ⟨hpayloads, fun e he => by simp at he, fun t'' m'' left' heq => ⟨_, rfl, ?_, ?_⟩⟩
    · obtain ⟨htm, rfl⟩ := Prod.mk.inj (Except.ok.inj heq)
      obtain ⟨rfl, rfl⟩ := Prod.mk.inj htm
      exact hholds
    · rw [hconn]
      exact hend.same

theorem Follows.congr {s s1 : Receive μ} (hconn : s1.conn = s.conn)
    {d : List Bytes × Except (ReadFault ε) ((Transport × μ) × Bytes)}
    {r : List Bytes × Except (ReadFault ε) (Receive μ)} (h : Follows crc32 k s1 total d r) :
    Follows crc32 k s total d r := by
  refine ⟨h.payloads, h.failed, fun t m left heq => ?_⟩
  rw [← hconn]
  exact h.holds t m left heq

variable (keystream) in
theorem Holds.handle (h : Holds crc32 k s t m pending total) {e : Event}
    (hfits : Fits (ε := ε) s e) (hwithin : (t.reader crc32).Within maximumData pending) :
    Follows crc32 k s (total + e.bytes.length)
      ((packets crc32 k).drainAll (t, m) (pending ++ s.conn.plaintext keystream total e.bytes))
      (s.handle crc32 keystream k e) := by
  cases e with
  | wrote used now =>
    obtain ⟨hrelease, hconn⟩ := h.release used false now
    simp only [Event.bytes, plaintext_nil, List.append_nil, Taker.drainAll_none h.waiting,
      List.length_nil, Nat.add_zero, Receive.handle]
    exact .of_ok hrelease (hconn ▸ .refl _)
  | read bytes now =>
    obtain ⟨s1, hprepare, hholds, hconn⟩ := h.prepare hwithin
    obtain ⟨hne, hroom⟩ := hfits
    simp only [Receive.handle, hprepare, Event.bytes]
    rw [← hconn]
    exact (hholds.onNetRead hne (hroom s1 hprepare) now).congr hconn

variable (crc32 k) in
/-- No packet of a stream is longer than what is received. -/
def FramesWithin (t : Transport) (m : μ) (stream : Bytes) : Prop :=
  ∀ p rest, Taker.Starts (packets crc32 k) (t, m) stream p rest →
    (p.1.reader crc32).Within maximumData rest

theorem Holds.run (h : Holds crc32 k s t m pending total) {es : List Event}
    (hfits : AllFit crc32 keystream k s es)
    (hframes : FramesWithin crc32 k t m
      (pending ++ s.conn.plaintext keystream total (es.flatMap Event.bytes))) :
    Follows crc32 k s (total + (es.flatMap Event.bytes).length)
      ((packets crc32 k).drainAll (t, m)
        (pending ++ s.conn.plaintext keystream total (es.flatMap Event.bytes)))
      (run crc32 keystream k s es) := by
  induction es generalizing s t m pending total with
  | nil =>
    simp only [List.flatMap_nil, plaintext_nil, List.append_nil, Taker.drainAll_none h.waiting,
      List.length_nil, Nat.add_zero, Receive.run]
    exact .of_ok h (.refl _)
  | cons e es ih =>
    obtain ⟨hfit, hrest⟩ := hfits
    rw [List.flatMap_cons, Conn.plaintext_append, ← List.append_assoc] at hframes ⊢
    have hwithin : (t.reader crc32).Within maximumData pending := by
      have hhere := hframes (t, m) _ (.here _ _)
      rw [List.append_assoc] at hhere
      exact hhere.of_append
    have hhandle := h.handle keystream hfit hwithin
    rw [Taker.drainAll_append, Receive.run]
    generalize hd : (packets crc32 k).drainAll (t, m)
      (pending ++ s.conn.plaintext keystream total e.bytes) = d at hhandle ⊢
    generalize hr : s.handle crc32 keystream k e = r at hhandle ⊢
    obtain ⟨payloads, result⟩ := r
    obtain ⟨dpayloads, f | ⟨⟨t', m'⟩, left⟩⟩ := d
    · obtain rfl : result = .error f := hhandle.failed f rfl
      exact ⟨hhandle.payloads, fun f' hf => by rw [Except.error.inj hf],
        fun _ _ _ heq => by simp at heq⟩
    · obtain ⟨s', hs', hholds, hsame⟩ := hhandle.holds t' m' left rfl
      obtain rfl : result = .ok s' := hs'
      obtain rfl : payloads = dpayloads := hhandle.payloads
      have hstarts := Taker.starts_of_drainAll hd
        (s.conn.plaintext keystream (total + e.bytes.length) (es.flatMap Event.bytes))
      have hplain := hsame.plaintext keystream (total + e.bytes.length)
        (es.flatMap Event.bytes)
      have hih := ih hholds (hrest payloads s' hr)
        (by rw [hplain]; exact fun p rest hp => hframes p rest (hstarts.trans hp))
      rw [hplain] at hih
      refine ⟨by simp [hih.payloads], hih.failed, fun t'' m'' left' heq => ?_⟩
      obtain ⟨s'', hs'', hholds', hsame'⟩ := hih.holds t'' m'' left' heq
      refine ⟨s'', hs'', ?_, hsame.trans hsame'⟩
      rwa [List.length_append, ← Nat.add_assoc]

/-- Packets fail with what their transport or their decoder reports, and in no other way. -/
theorem fault_of_drainAll {p : Transport × μ} {b : Bytes} {payloads : List Bytes} {f : ReadFault ε}
    (h : (packets crc32 k).drainAll p b = (payloads, .error f)) :
    (∃ g, f = .unpack (.fault g)) ∨ ∃ e, f = .deserialize e := by
  obtain ⟨q, c, out, htake⟩ := Taker.exists_take_of_drainAll_error h
  change takePacket crc32 k q c = _ at htake
  unfold takePacket at htake
  split at htake
  · simp at htake
  · simp only [Option.some.injEq, Prod.mk.injEq, Except.error.injEq] at htake
    exact Or.inl ⟨_, htake.2.symm⟩
  · split at htake
    · simp only [Option.some.injEq, Prod.mk.injEq, Except.error.injEq] at htake
      exact Or.inl ⟨_, htake.2.symm⟩
    · split at htake
      · simp only [Option.some.injEq, Prod.mk.injEq, Except.error.injEq] at htake
        exact Or.inr ⟨_, htake.2.symm⟩
      · simp at htake

theorem holds_new (c : Conn) (m : μ) (now : Nat) (h : c.Decrypted 0 0) :
    Holds crc32 k (Receive.new c m now) c.transport m [] 0 := by
  refine ⟨rfl, rfl, h, Nat.zero_le _, rfl, ?_, ?_, ?_⟩
  · simp [Receive.new]
  · rw [Receive.new, List.length_replicate]
    decide
  · show takePacket crc32 k _ [] = none
    simp [takePacket, Transport.run_nil]

variable (crc32 keystream k) in
/-- What a run of reads keeps of the stream that it was given. -/
structure Kept (c : Conn) (m : μ) (stream : Bytes)
    (r : List Bytes × Except (ReadFault ε) (Receive μ)) : Prop where
  decoded : r.1 =
    ((packets crc32 k).drainAll (c.transport, m) (c.plaintext keystream 0 stream)).1
  failed : ∀ f, r.2 = .error f ↔
    ((packets crc32 k).drainAll (c.transport, m) (c.plaintext keystream 0 stream)).2 = .error f
  inRange : r.2 ≠ .error .outOfRange ∧ r.2 ≠ .error .receiveLimit ∧
    r.2 ≠ .error (.unpack .smallerThanDecrypted)
  pending : ∀ s, r.2 = .ok s → s.readTail ≤ s.readBuffer.length ∧
    ((packets crc32 k).drainAll (c.transport, m) (c.plaintext keystream 0 stream)).2 =
      .ok ((s.conn.transport, s.mtp), s.readBuffer.take s.readTail) ∧
    s.conn.Decrypted s.readTail stream.length

theorem kept_of_run {c : Conn} {m : μ} {now : Nat} {es : List Event} (hc : c.Decrypted 0 0)
    (hfits : AllFit crc32 keystream k (Receive.new c m now) es)
    (hframes : FramesWithin crc32 k c.transport m
      (c.plaintext keystream 0 (es.flatMap Event.bytes))) :
    Kept crc32 keystream k c m (es.flatMap Event.bytes)
      (run crc32 keystream k (Receive.new c m now) es) := by
  have hrun := (holds_new c m now hc).run hfits hframes
  simp only [List.nil_append, Nat.zero_add] at hrun
  change Follows crc32 k _ _
    ((packets crc32 k).drainAll (c.transport, m) (c.plaintext keystream 0 _)) _ at hrun
  generalize hd : (packets crc32 k).drainAll (c.transport, m)
    (c.plaintext keystream 0 (es.flatMap Event.bytes)) = d at hrun
  generalize run crc32 keystream k (Receive.new c m now) es = r at hrun ⊢
  obtain ⟨payloads, result⟩ := r
  obtain ⟨dpayloads, f | ⟨⟨t', m'⟩, left⟩⟩ := d
  · obtain rfl : result = .error f := hrun.failed f rfl
    refine ⟨by rw [hd]; exact hrun.payloads, fun g => by simp [hd], ?_,
      fun s hs => by simp at hs⟩
    rcases fault_of_drainAll hd with ⟨g, rfl⟩ | ⟨e, rfl⟩ <;> simp
  · obtain ⟨s', hs', hholds, -⟩ := hrun.holds t' m' left rfl
    obtain rfl : result = .ok s' := hs'
    refine ⟨by rw [hd]; exact hrun.payloads, fun g => by rw [hd]; simp, by simp, fun s hs => ?_⟩
    obtain rfl := Except.ok.inj hs
    have hfront : s'.readBuffer.take s'.readTail = left := by
      rw [← hholds.front, window, List.drop_zero, Nat.sub_zero]
    refine ⟨hholds.tail, ?_, hholds.length ▸ hholds.decrypted⟩
    rw [hd, hholds.transport, hholds.mtp, hfront]

/-- However a stream is cut into reads, the same payloads are passed on. -/
theorem reading_independent_of_cuts {c : Conn} {m : μ} {now now' : Nat} {es es' : List Event}
    (hc : c.Decrypted 0 0) (hbytes : es.flatMap Event.bytes = es'.flatMap Event.bytes)
    (hframes : FramesWithin crc32 k c.transport m
      (c.plaintext keystream 0 (es.flatMap Event.bytes)))
    (hfits : AllFit crc32 keystream k (Receive.new c m now) es)
    (hfits' : AllFit crc32 keystream k (Receive.new c m now') es') :
    (run crc32 keystream k (Receive.new c m now) es).1 =
        (run crc32 keystream k (Receive.new c m now') es').1 ∧
      (∀ f, (run crc32 keystream k (Receive.new c m now) es).2 = .error f ↔
        (run crc32 keystream k (Receive.new c m now') es').2 = .error f) ∧
      Kept crc32 keystream k c m (es.flatMap Event.bytes)
        (run crc32 keystream k (Receive.new c m now) es) := by
  have hkept := kept_of_run hc hfits hframes
  rw [hbytes] at hframes
  have hkept' := kept_of_run hc hfits' hframes
  rw [← hbytes] at hkept'
  exact ⟨hkept.decoded.trans hkept'.decoded.symm,
    fun f => (hkept.failed f).trans (hkept'.failed f).symm, hkept⟩

theorem Holds.fits (h : Holds crc32 k s t m pending total) {bytes : Bytes} (hne : bytes ≠ [])
    (hshort : pending.length + bytes.length ≤ initialReadBufferSize) (now : Nat) :
    Fits (ε := ε) s (.read bytes now) := by
  refine ⟨hne, fun s' hprepare => ?_⟩
  have hlen := h.length
  have hgrown := h.grown
  have hpos := List.length_pos_of_ne_nil hne
  unfold prepareReadBuffer at hprepare
  rw [if_neg (by omega)] at hprepare
  obtain rfl := Except.ok.inj hprepare
  omega

/-- A decoder that counts payloads. -/
def counting : Consumer Nat Unit where
  deserialize m p := (.ok (m + 1), p)
  inPlace _ _ := rfl

def cutConn : Conn := .obfuscated ⟨.abridged .new, 0, 0⟩

def cutKeystream (position : Nat) : UInt8 := UInt8.ofNat position

def cutPlain : Bytes := [2, 1, 2, 3, 4, 5, 6, 7, 8]

theorem take_cut : (packets Transport.crc32Ieee counting).take (.abridged .new, 0) cutPlain =
    some ([cutPlain.drop 1], .ok ((.abridged .new, 1), 9)) := rfl

theorem drain_cut : (packets Transport.crc32Ieee counting).drainAll (.abridged .new, 0) [2, 1, 2] =
    ([], .ok ((.abridged .new, 0), [2, 1, 2])) := rfl

theorem framesWithin_cut :
    FramesWithin Transport.crc32Ieee counting (.abridged .new) 0 cutPlain := by
  intro p rest hstarts
  cases hstarts with
  | here => exact ⟨by decide, fun _ => ⟨by decide, fun _ => trivial⟩⟩
  | next taken hrest =>
    rw [take_cut] at taken
    obtain ⟨-, h⟩ := Prod.mk.inj (Option.some.inj taken)
    obtain ⟨rfl, rfl⟩ := Prod.mk.inj (Except.ok.inj h)
    cases hrest with
    | here => exact ⟨by decide, fun h => absurd h (by decide)⟩
    | next taken _ => exact absurd taken (by simp [packets, takePacket, Transport.run_nil, cutPlain])

theorem holds_cut :
    Holds Transport.crc32Ieee counting (Receive.new cutConn 0 0) (.abridged .new) 0 [] 0 :=
  holds_new cutConn 0 0 ⟨rfl, rfl⟩

def cutReads : List Event := [.read [2, 0, 0] 0, .read [0, 0, 0, 0, 0, 0] 0]

def wholeRead : List Event := [.read [2, 0, 0, 0, 0, 0, 0, 0, 0] 0]

theorem allFit_cut :
    AllFit Transport.crc32Ieee cutKeystream counting (Receive.new cutConn 0 0) cutReads := by
  have hfits : Fits (ε := Unit) (Receive.new cutConn 0 0) (.read [2, 0, 0] 0) :=
    holds_cut.fits (by simp) (by decide) 0
  refine ⟨hfits, fun payloads s' hhandle => ⟨?_, fun _ _ _ => trivial⟩⟩
  have hfollows := holds_cut.handle cutKeystream hfits ⟨by decide, fun h => absurd h (by decide)⟩
  obtain ⟨s'', hs'', hholds, -⟩ :=
    hfollows.holds (.abridged .new) 0 [2, 1, 2] (congrArg Prod.snd drain_cut)
  rw [hhandle] at hs''
  obtain rfl := Except.ok.inj hs''
  exact hholds.fits (by simp) (by decide) 0

theorem allFit_whole :
    AllFit Transport.crc32Ieee cutKeystream counting (Receive.new cutConn 0 0) wholeRead :=
  ⟨holds_cut.fits (by simp) (by decide) 0, fun _ _ _ => trivial⟩

theorem reading_independent_of_cuts_obfuscated :
    (run Transport.crc32Ieee cutKeystream counting (Receive.new cutConn 0 0) cutReads).1 =
      (run Transport.crc32Ieee cutKeystream counting (Receive.new cutConn 0 0) wholeRead).1 := by
  have hdecrypted : cutConn.Decrypted 0 0 := ⟨rfl, rfl⟩
  have hbytes : cutReads.flatMap Event.bytes = wholeRead.flatMap Event.bytes := rfl
  have hplain : cutConn.plaintext cutKeystream 0 (cutReads.flatMap Event.bytes) = cutPlain := by
    decide
  have hframes := framesWithin_cut
  rw [← hplain] at hframes
  exact (reading_independent_of_cuts hdecrypted hbytes hframes allFit_cut allFit_whole).1

end Receive

end Grammers
