import Grammers.MtProxy

namespace Grammers

open Checked Incremental

/-- A transport with the bytes it has received. -/
structure MtProxyReceiver where
  transport : MtProxyTransport
  buffer : Bytes

inductive Receiving where
  | append (bytes : Bytes)
  | unpack

/-- The bytes that are received in a run. -/
def appended : List Receiving → Bytes
  | [] => []
  | .append bytes :: acts => bytes ++ appended acts
  | .unpack :: acts => appended acts

/-- The packets of a stream, before the cipher. -/
def framed (padded : Bool) (packets : List (Bytes × Bytes)) : Bytes :=
  packets.flatMap fun x => frame padded x.1 x.2

theorem xorStream_xorStream (keystream : Nat → UInt8) (position : Nat) (b : Bytes) :
    xorStream keystream position (xorStream keystream position b) = b := by
  induction b generalizing position with
  | nil => rfl
  | cons x b ih => simp [xorStream, ih, UInt8.xor_assoc]

/-- A payload and the padding chosen for it. -/
structure Framed (x : Bytes × Bytes) : Prop where
  payload : ProxyPayload x.1
  padding : x.2.length ≤ 15

namespace MtProxyTransport

def reader (padded : Bool) : Reader UInt8 (Except TransportError UnpackedOffset) :=
  if padded then Padded.reader else Abridged.reader

variable {padded : Bool} {p padding b : Bytes} {offset : UnpackedOffset}

theorem read_eq (t : MtProxyTransport) (b : Bytes) :
    t.read b = (awaited ((reader t.padded).run b), t) := by
  unfold read reader
  split
  · rw [Padded.unpackPadded_eq]
  · simp only [Abridged.unpack, Abridged.read_eq]

theorem inside_reader (h : (reader padded).run b = some (.ok offset)) :
    Transport.Inside offset b := by
  unfold reader at h
  split at h
  · exact (Padded.of_run h).2
  · exact Transport.Abridged.inside h

theorem carries_frame (padded : Bool) (h : ProxyPayload p) (hpad : padding.length ≤ 15) :
    Transport.Carries (reader padded) (frame padded p padding) p := by
  cases padded with
  | true => exact h.carries_padded hpad
  | false => exact (Transport.Abridged.frame_carries h.payload).2

end MtProxyTransport

namespace MtProxyReceiver

variable (rx : Nat → UInt8)

def call (s : MtProxyReceiver) : Except (Fault TransportError) Bytes × MtProxyReceiver :=
  match s.transport.unpack rx s.buffer with
  | (.error e, t, buffer) => (.error e, ⟨t, buffer⟩)
  | (.ok offset, t, buffer) =>
    (.ok (payloadOf offset buffer), ⟨t, buffer.drop offset.nextOffset⟩)

def run (s : MtProxyReceiver) :
    List Receiving → List (Except (Fault TransportError) Bytes) × MtProxyReceiver
  | [] => ([], s)
  | .append bytes :: acts => run { s with buffer := s.buffer ++ bytes } acts
  | .unpack :: acts =>
    let (answer, s) := s.call rx
    let (answers, s) := run s acts
    (answer :: answers, s)

/-- A buffer that holds some plaintext from a position of the stream on, part of it still
encrypted. -/
structure Window (padded : Bool) (base : Nat) (plain : Bytes) (s : MtProxyReceiver) : Prop where
  mode : s.transport.padded = padded
  clear : s.transport.decrypted ≤ s.buffer.length
  position : s.transport.position = base + s.transport.decrypted
  plain_eq : s.buffer.take s.transport.decrypted ++
    xorStream rx s.transport.position (s.buffer.drop s.transport.decrypted) = plain

variable {rx} {padded : Bool} {base : Nat} {plain : Bytes} {s : MtProxyReceiver}

namespace Window

theorem length_eq (h : Window rx padded base plain s) : plain.length = s.buffer.length := by
  have := h.clear
  rw [← h.plain_eq]
  simp
  omega

theorem append (h : Window rx padded base plain s) (bytes : Bytes) :
    Window rx padded base (plain ++ xorStream rx (base + plain.length) bytes)
      { s with buffer := s.buffer ++ bytes } := by
  have hclear := h.clear
  have hlen := h.length_eq
  refine ⟨h.mode, by simp; omega, h.position, ?_⟩
  simp only
  rw [List.take_append_of_le_length hclear, List.drop_append_of_le_length hclear,
    xorStream_append, ← List.append_assoc, h.plain_eq, h.position]
  congr 2
  simp
  omega

/-- A call decrypts what is new, and answers what its reader makes of the plaintext. -/
theorem call_eq (h : Window rx padded base plain s) :
    ∃ t : MtProxyTransport, t.padded = padded ∧ t.position = base + plain.length ∧
      s.call rx = match (MtProxyTransport.reader padded).run plain with
        | none => (.error (.error .missingBytes), ⟨{ t with decrypted := plain.length }, plain⟩)
        | some (.error e) => (.error (.error e), ⟨{ t with decrypted := plain.length }, plain⟩)
        | some (.ok offset) => (.ok (payloadOf offset plain),
            ⟨{ t with decrypted := plain.length - offset.nextOffset },
              plain.drop offset.nextOffset⟩) := by
  have hlen := h.length_eq
  have hclear := h.clear
  refine ⟨{ s.transport with position := base + plain.length }, h.mode, rfl, ?_⟩
  have hposition : s.transport.position + (s.buffer.drop s.transport.decrypted).length =
      base + plain.length := by
    rw [h.position, List.length_drop]
    omega
  have hroom : ¬s.buffer.length < s.transport.decrypted := by omega
  unfold call MtProxyTransport.unpack
  simp only [if_neg hroom, h.plain_eq, hposition, MtProxyTransport.read_eq, h.mode]
  rcases hr : (MtProxyTransport.reader padded).run plain with _ | e | offset
  · rfl
  · rfl
  · simp only [awaited, sub_ok (MtProxyTransport.inside_reader hr).bounded]

theorem of_plain {t : MtProxyTransport} {n : Nat} (hmode : t.padded = padded) (hn : n ≤ plain.length)
    (hposition : t.position = base + plain.length) :
    Window rx padded (base + n) (plain.drop n)
      ⟨{ t with decrypted := plain.length - n }, plain.drop n⟩ where
  mode := hmode
  clear := by simp
  position := by
    simp only [hposition]
    omega
  plain_eq := by
    simp only
    rw [List.take_of_length_le List.length_drop.le, List.drop_of_length_le List.length_drop.le]
    simp [xorStream]

end Window

variable {packets : List (Bytes × Bytes)}

/-- A call takes the first packet if all of it is there, and nothing otherwise. -/
theorem Window.call_framed (h : Window rx padded base plain s) (hp : ∀ x ∈ packets, Framed x)
    (hfit : plain <+: framed padded packets) :
    (s.call rx).2.transport.position = base + plain.length ∧
      ((∃ x rest, packets = x :: rest ∧ frame padded x.1 x.2 <+: plain ∧
          (s.call rx).1 = .ok x.1 ∧ Window rx padded (base + (frame padded x.1 x.2).length)
            (plain.drop (frame padded x.1 x.2).length) (s.call rx).2) ∨
        ((∀ x rest, packets = x :: rest → plain.length < (frame padded x.1 x.2).length) ∧
          (s.call rx).1 = .error (.error .missingBytes) ∧
            Window rx padded base plain (s.call rx).2)) := by
  obtain ⟨t, hmode, hposition, hcall⟩ := h.call_eq
  have hmissing (hnone : (MtProxyTransport.reader padded).run plain = none) :
      (s.call rx).2.transport.position = base + plain.length ∧
        (s.call rx).1 = .error (.error .missingBytes) ∧
          Window rx padded base plain (s.call rx).2 := by
    rw [hnone] at hcall
    rw [hcall]
    exact ⟨hposition, rfl, Window.of_plain hmode (Nat.zero_le _) hposition⟩
  cases packets with
  | nil =>
    obtain rfl := List.prefix_nil.mp hfit
    have hnone : (MtProxyTransport.reader padded).run [] = none := by cases padded <;> rfl
    obtain ⟨h₁, h₂, h₃⟩ := hmissing hnone
    exact ⟨h₁, Or.inr ⟨nofun, h₂, h₃⟩⟩
  | cons x rest =>
    have hx := hp x List.mem_cons_self
    have hcarries := MtProxyTransport.carries_frame padded hx.payload hx.padding
    rcases Nat.lt_or_ge plain.length (frame padded x.1 x.2).length with hlt | hge
    · have hprefix : plain <+: frame padded x.1 x.2 :=
        List.prefix_of_prefix_length_le hfit (List.prefix_append _ _) hlt.le
      have hne : plain ≠ frame padded x.1 x.2 := by
        rintro rfl
        exact Nat.lt_irrefl _ hlt
      obtain ⟨h₁, h₂, h₃⟩ :=
        hmissing (hcarries.run_prefix MtProxyTransport.inside_reader hprefix hne)
      refine ⟨h₁, Or.inr ⟨?_, h₂, h₃⟩⟩
      rintro _ _ ⟨⟩
      exact hlt
    · have hprefix : frame padded x.1 x.2 <+: plain :=
        List.prefix_of_prefix_length_le (List.prefix_append _ _) hfit hge
      obtain ⟨lo, hi, hrun, hdata⟩ := hcarries
      have hin := MtProxyTransport.inside_reader hrun
      obtain ⟨after, hafter⟩ := hprefix
      have hpayload : payloadOf ⟨lo, hi, (frame padded x.1 x.2).length⟩ plain = x.1 := by
        rw [← hafter, payloadOf_append hin]
        exact hdata
      rw [← hafter, Reader.run_append hrun] at hcall
      simp only at hcall
      rw [hafter, hpayload] at hcall
      rw [hcall]
      exact ⟨hposition, Or.inl ⟨x, rest, rfl, ⟨after, hafter⟩, rfl,
        Window.of_plain hmode hge hposition⟩⟩

/-- A state after some packets have been taken, and answers that gave them. -/
structure Progress (rx : Nat → UInt8) (padded : Bool) (base : Nat) (plain : Bytes)
    (packets : List (Bytes × Bytes)) (n : Nat) (left : Bytes)
    (r : List (Except (Fault TransportError) Bytes) × MtProxyReceiver) : Prop where
  payloads : r.1.filterMap Except.toOption = (packets.map Prod.fst).take n
  answers : ∀ a ∈ r.1, a = .error (.error .missingBytes) ∨ ∃ p, a = .ok p
  plain_eq : framed padded (packets.take n) ++ left = plain
  window : Window rx padded (base + (framed padded (packets.take n)).length) left r.2

theorem run_framed (acts : List Receiving) : ∀ {s : MtProxyReceiver} {base : Nat} {plain : Bytes}
    {packets : List (Bytes × Bytes)}, Window rx padded base plain s → (∀ x ∈ packets, Framed x) →
    plain ++ xorStream rx (base + plain.length) (appended acts) <+: framed padded packets →
    ∃ n left, Progress rx padded base (plain ++ xorStream rx (base + plain.length) (appended acts))
      packets n left (s.run rx acts) := by
  induction acts with
  | nil =>
    intro s base plain packets h hp hfit
    refine ⟨0, plain, rfl, nofun, ?_, h⟩
    simp [framed, appended, xorStream]
  | cons act acts ih =>
    intro s base plain packets h hp hfit
    cases act with
    | append bytes =>
      have happ : plain ++ xorStream rx (base + plain.length) (appended (.append bytes :: acts)) =
          plain ++ xorStream rx (base + plain.length) bytes ++ xorStream rx
            (base + (plain ++ xorStream rx (base + plain.length) bytes).length)
              (appended acts) := by
        rw [appended, xorStream_append, List.append_assoc, List.length_append, length_xorStream,
          Nat.add_assoc]
      rw [happ] at hfit ⊢
      exact ih (h.append bytes) hp hfit
    | unpack =>
      have hplain : plain <+: framed padded packets := (List.prefix_append _ _).trans hfit
      obtain ⟨-, ⟨x, rest, rfl, ⟨after, hafter⟩, hanswer, hwindow⟩ | ⟨-, hanswer, hwindow⟩⟩ :=
        h.call_framed hp hplain
      · obtain ⟨f, hf⟩ : ∃ f, f = frame padded x.1 x.2 := ⟨_, rfl⟩
        rw [← hf] at hafter hwindow
        subst hafter
        have hbase : base + (f ++ after).length = base + f.length + after.length := by
          rw [List.length_append, Nat.add_assoc]
        have hcons : framed padded (x :: rest) = f ++ framed padded rest := by
          rw [hf]
          rfl
        rw [List.drop_left] at hwindow
        rw [hbase, hcons, appended, List.append_assoc] at hfit
        have hfit' := (List.prefix_append_right_inj f).mp hfit
        obtain ⟨n, left, hrun⟩ := ih hwindow (fun y hy => hp y (List.mem_cons_of_mem x hy)) hfit'
        have htake : framed padded ((x :: rest).take (n + 1)) = f ++ framed padded (rest.take n) := by
          rw [hf]
          rfl
        refine ⟨n + 1, left, ?_, ?_, ?_, ?_⟩
        · simp only [run, hanswer, List.filterMap_cons, Except.toOption, List.map_cons,
            List.take_succ_cons]
          rw [← hrun.payloads]
        · intro a ha
          simp only [run, hanswer, List.mem_cons] at ha
          rcases ha with rfl | ha
          · exact Or.inr ⟨_, rfl⟩
          · exact hrun.answers a ha
        · rw [htake, hbase, List.append_assoc, hrun.plain_eq, appended, List.append_assoc]
        · rw [htake, List.length_append, ← Nat.add_assoc]
          exact hrun.window
      · obtain ⟨n, left, hrun⟩ := ih hwindow hp hfit
        refine ⟨n, left, ?_, ?_, hrun.plain_eq, hrun.window⟩
        · simp only [run, hanswer, List.filterMap_cons, Except.toOption]
          exact hrun.payloads
        · intro a ha
          simp only [run, hanswer, List.mem_cons] at ha
          rcases ha with rfl | ha
          · exact Or.inl rfl
          · exact hrun.answers a ha

theorem run_append (acts acts' : List Receiving) : ∀ s : MtProxyReceiver,
    s.run rx (acts ++ acts') = ((s.run rx acts).1 ++ ((s.run rx acts).2.run rx acts').1,
      ((s.run rx acts).2.run rx acts').2) := by
  induction acts with
  | nil => exact fun s => rfl
  | cons act acts ih =>
    intro s
    cases act with
    | append bytes => exact ih _
    | unpack => simp only [List.cons_append, run, ih]

theorem appended_replicate (m : Nat) : appended (List.replicate m .unpack) = [] := by
  induction m with
  | zero => rfl
  | succ m ih => exact ih

/-- As many calls as there are packets take them all from a stream that is complete. -/
theorem run_complete (packets : List (Bytes × Bytes)) : ∀ {s : MtProxyReceiver} {base m : Nat},
    packets.length ≤ m → Window rx padded base (framed padded packets) s →
    (∀ x ∈ packets, Framed x) →
    ((s.run rx (List.replicate m .unpack)).1).filterMap Except.toOption =
      packets.map Prod.fst := by
  induction packets with
  | nil =>
    intro s base m _ h hp
    obtain ⟨n, left, hrun⟩ := run_framed (List.replicate m .unpack) h hp
      (by rw [appended_replicate]; exact List.prefix_rfl)
    rw [hrun.payloads]
    exact List.take_nil
  | cons x rest ih =>
    intro s base m hm h hp
    obtain ⟨m, rfl⟩ := Nat.exists_eq_succ_of_ne_zero (show m ≠ 0 by rw [List.length_cons] at hm; omega)
    obtain ⟨-, ⟨_, _, ⟨⟩, -, hanswer, hwindow⟩ | ⟨hshort, -⟩⟩ := h.call_framed hp List.prefix_rfl
    · have hdrop : (framed padded (x :: rest)).drop (frame padded x.1 x.2).length =
          framed padded rest := List.drop_left
      rw [hdrop] at hwindow
      have hrest := ih (Nat.le_of_succ_le_succ hm) hwindow
        fun y hy => hp y (List.mem_cons_of_mem x hy)
      simp only [List.replicate_succ, run, hanswer, List.filterMap_cons,
        Except.toOption, List.map_cons]
      rw [← hrest]
    · have hlt := hshort x rest rfl
      have hle : (frame padded x.1 x.2).length ≤ (framed padded (x :: rest)).length :=
        (List.prefix_append _ (framed padded rest)).length_le
      exact absurd hlt (Nat.not_lt.mpr hle)

/-- What a window says of the buffer: what is before the position of the cipher has been decrypted,
and what is after it has not. -/
theorem Window.buffer_eq (h : Window rx padded base plain s) {cipher consumed : Bytes}
    (hbase : consumed.length = base) (hcipher : consumed ++ plain = xorStream rx 0 cipher) :
    consumed ++ s.buffer =
      (xorStream rx 0 cipher).take s.transport.position ++ cipher.drop s.transport.position := by
  obtain ⟨clear, hclear⟩ : ∃ clear, clear = s.buffer.take s.transport.decrypted := ⟨_, rfl⟩
  obtain ⟨raw, hraw⟩ : ∃ raw, raw = s.buffer.drop s.transport.decrypted := ⟨_, rfl⟩
  have hlen : clear.length = s.transport.decrypted := by
    have := h.clear
    rw [hclear, List.length_take]
    omega
  have hposition : s.transport.position = (consumed ++ clear).length := by
    rw [h.position, List.length_append, hbase, hlen]
  have hplain : clear ++ xorStream rx s.transport.position raw = plain := by
    rw [hclear, hraw]
    exact h.plain_eq
  have hsplit : xorStream rx 0 cipher = consumed ++ clear ++ xorStream rx s.transport.position raw := by
    rw [← hcipher, ← hplain, List.append_assoc]
  have hcipher' : cipher = xorStream rx 0 (consumed ++ clear) ++ raw := by
    rw [← xorStream_xorStream rx 0 cipher, hsplit, xorStream_append, Nat.zero_add, ← hposition,
      xorStream_xorStream]
  have hbuffer : s.buffer = clear ++ raw := by
    rw [hclear, hraw, List.take_append_drop]
  rw [hsplit, hposition, List.take_left, hcipher', List.drop_left' (by simp), hbuffer,
    List.append_assoc]

end MtProxyReceiver

namespace MtProxyTransport

variable {p : Bytes}

/-- A packet leaves as its frame through the cipher, with a padding that its first byte chose. -/
theorem pack_framed (tx : Nat → UInt8) {random : Bytes} (t : MtProxyTransport)
    (hrandom : random.length = 16) (htag : t.abridged.init = true) (h : ProxyPayload p) :
    ∃ padding, padding.length ≤ 15 ∧ t.pack tx random p =
      .ok (t.head.getD [] ++ xorStream tx t.sent (frame t.padded p padding),
        { t with sent := t.sent + (frame t.padded p padding).length, head := none }) := by
  obtain ⟨hge, hwords⟩ := h.length_ge
  have hbound := h.bounded
  have hnibble : (random[0] &&& 15).toNat ≤ 15 := by
    rw [UInt8.toNat_and]
    exact Nat.and_le_right
  refine ⟨random.take (random[0] &&& 15).toNat, by rw [List.length_take]; omega, ?_⟩
  have hindex : index (ε := TransportError) random 0 = .ok random[0] := index_ok (by omega)
  have hslice : slice (ε := TransportError) random 0 (random[0] &&& 15).toNat =
      .ok (random.take (random[0] &&& 15).toNat) := by
    rw [slice_ok (Nat.zero_le _) (by omega)]
    rfl
  have hpacket : t.packet random p =
      .ok (frame t.padded p (random.take (random[0] &&& 15).toNat), t) := by
    unfold packet frame
    split
    · have hsmall : ¬2 ^ 32 ≤ p.length + (random.take (random[0] &&& 15).toNat).length := by
        rw [List.length_take]
        unfold maxPacket at hbound
        omega
      simp only [hwords, hindex, hslice, hsmall, ne_eq, not_true_eq_false, ↓reduceIte, bind,
        Except.bind, List.length_append]
    · simp only [Abridged.pack, hwords, htag, ne_eq, not_true_eq_false, ↓reduceIte, Except.map]
  simp only [pack, hpacket, bind, Except.bind]

end MtProxyTransport

namespace MtProxyReceiver

/-- What a run has come to: the packets taken, what has been decrypted, and the next answer. -/
structure Recovers (rx : Nat → UInt8) (padded : Bool) (packets : List (Bytes × Bytes)) (cipher : Bytes)
    (r : List (Except (Fault TransportError) Bytes) × MtProxyReceiver) (n : Nat) : Prop where
  payloads : r.1.filterMap Except.toOption = (packets.map Prod.fst).take n
  answers : ∀ a ∈ r.1, a = .error (.error .missingBytes) ∨ ∃ p, a = .ok p
  position : r.2.transport.position ≤ cipher.length
  decrypted : framed padded (packets.take n) ++ r.2.buffer =
    (xorStream rx 0 cipher).take r.2.transport.position ++ cipher.drop r.2.transport.position
  decrypts : (r.2.call rx).2.transport.position = cipher.length
  next : (r.2.call rx).1 =
    if (framed padded (packets.take (n + 1))).length ≤ cipher.length then
      match packets[n]? with
      | some x => .ok x.1
      | none => .error (.error .missingBytes)
    else .error (.error .missingBytes)

theorem framed_take_drop (padded : Bool) (packets : List (Bytes × Bytes)) (n : Nat) :
    framed padded (packets.take n) ++ framed padded (packets.drop n) = framed padded packets := by
  rw [framed, framed, ← List.flatMap_append, List.take_append_drop]
  rfl

theorem Progress.recovers {rx : Nat → UInt8} {padded : Bool} {packets : List (Bytes × Bytes)}
    {n : Nat} {left cipher : Bytes}
    {r : List (Except (Fault TransportError) Bytes) × MtProxyReceiver}
    (h : Progress rx padded 0 (xorStream rx 0 cipher) packets n left r)
    (hp : ∀ x ∈ packets, Framed x) (hfit : xorStream rx 0 cipher <+: framed padded packets) :
    Recovers rx padded packets cipher r n := by
  have hlen := congrArg List.length h.plain_eq
  rw [List.length_append, length_xorStream] at hlen
  have hleft : left <+: framed padded (packets.drop n) := by
    rw [← h.plain_eq, ← framed_take_drop padded packets n] at hfit
    exact (List.prefix_append_right_inj _).mp hfit
  have hdrop : ∀ x ∈ packets.drop n, Framed x := fun x hx => hp x (List.mem_of_mem_drop hx)
  obtain ⟨hposition, hcall⟩ := h.window.call_framed hdrop hleft
  refine ⟨h.payloads, h.answers, ?_, ?_, by omega, ?_⟩
  · have hclear := h.window.clear
    have hlength := h.window.length_eq
    rw [h.window.position]
    omega
  · exact h.window.buffer_eq (Nat.zero_add _).symm h.plain_eq
  · rcases hcall with ⟨x, rest, hx, hframe, hanswer, -⟩ | ⟨hshort, hanswer, -⟩
    · have hget : packets[n]? = some x := by
        rw [← List.head?_drop, hx]
        rfl
      have htake : packets.take (n + 1) = packets.take n ++ [x] := by
        rw [List.take_add_one, hget]
        rfl
      have hle := hframe.length_le
      rw [hanswer, hget, if_pos]
      rw [htake, framed, List.flatMap_append, List.length_append, List.flatMap_singleton]
      change (framed padded (packets.take n)).length + _ ≤ _
      omega
    · rw [hanswer]
      split
      next hge =>
        split
        next x hget =>
          have hx : packets.drop n = x :: packets.drop (n + 1) := List.drop_eq_getElem?_toList_append ▸ by
            simp [hget]
          have htake : packets.take (n + 1) = packets.take n ++ [x] := by
            rw [List.take_add_one, hget]
            rfl
          have hlt := hshort x _ hx
          rw [htake, framed, List.flatMap_append, List.length_append, List.flatMap_singleton] at hge
          change (framed padded (packets.take n)).length + _ ≤ _ at hge
          omega
        next => rfl
      next => rfl

end MtProxyReceiver

/-- However the stream is cut, every packet is taken from it once all of it is there, and never
before. -/
theorem mtproxy_packets_recovered (cipher : Bytes → MtProxyTransport.Streams) (rx : Nat → UInt8)
    (padded : Bool) (dcId : Int16) (nonce : Bytes) (packets : List (Bytes × Bytes))
    (hp : ∀ x ∈ packets, Framed x) (acts : List Receiving) (rest : Bytes)
    (hacts : appended acts ++ rest = xorStream rx 0 (framed padded packets)) :
    let start : MtProxyReceiver := ⟨.withNonce cipher padded dcId nonce, []⟩
    (∃ n, MtProxyReceiver.Recovers rx padded packets (appended acts) (start.run rx acts) n) ∧
      (rest = [] → (start.run rx (acts ++ List.replicate packets.length .unpack)).1.filterMap
        Except.toOption = packets.map Prod.fst) ∧
      (∀ (tx : Nat → UInt8) (random : Bytes) (t : MtProxyTransport) (p : Bytes),
        random.length = 16 → t.abridged.init = true → ProxyPayload p →
          ∃ padding, padding.length ≤ 15 ∧ t.pack tx random p =
            .ok (t.head.getD [] ++ xorStream tx t.sent (frame t.padded p padding),
              { t with sent := t.sent + (frame t.padded p padding).length, head := none })) ∧
      ∀ b, unpackPadded b ≠ .error .panic ∧
        ∀ offset, unpackPadded b = .ok offset → 4 ≤ offset.dataStart ∧
          offset.dataStart ≤ offset.dataEnd ∧ offset.dataEnd ≤ offset.nextOffset ∧
            offset.nextOffset ≤ b.length := by
  intro start
  have hwindow : MtProxyReceiver.Window rx padded 0 [] start := ⟨rfl, Nat.le_refl 0, rfl, rfl⟩
  have hcut : xorStream rx 0 (appended acts) ++ xorStream rx (0 + (appended acts).length) rest =
      framed padded packets := by
    rw [← xorStream_append, hacts, xorStream_xorStream]
  have hfit : xorStream rx 0 (appended acts) <+: framed padded packets := ⟨_, hcut⟩
  obtain ⟨n, left, hrun⟩ := MtProxyReceiver.run_framed acts hwindow hp hfit
  refine ⟨⟨n, hrun.recovers hp hfit⟩, ?_, ?_, unpackPadded_total⟩
  · rintro rfl
    have hleft : left = framed padded (packets.drop n) := by
      have heq : framed padded (packets.take n) ++ left =
          framed padded (packets.take n) ++ framed padded (packets.drop n) := by
        rw [MtProxyReceiver.framed_take_drop, hrun.plain_eq, ← hcut]
        simp [xorStream]
      exact List.append_cancel_left heq
    have hrest := hrun.window
    rw [hleft] at hrest
    have hall := MtProxyReceiver.run_complete (packets.drop n) (m := packets.length) (by simp) hrest
      fun x hx => hp x (List.mem_of_mem_drop hx)
    rw [MtProxyReceiver.run_append, List.filterMap_append, hrun.payloads, hall, ← List.map_take,
      ← List.map_append, List.take_append_drop]
  · exact fun tx random t p hrandom htag h => t.pack_framed tx hrandom htag h

/-- A padded packet that comes in two pieces. -/
theorem mtproxy_packets_recovered_two :
    let p : Bytes := List.replicate 8 0 ++ (List.replicate 8 1 ++ ([4, 0, 0, 0] ++ [9, 9, 9, 9]))
    let start : MtProxyReceiver :=
      ⟨.withNonce (fun _ => ⟨fun _ => 1, fun _ => 7⟩) true 2 (List.replicate 64 5), []⟩
    ((start.run (fun _ => 7) ([.append ((xorStream (fun _ => 7) 0 (frame true p [3, 3])).take 5),
      .unpack, .append ((xorStream (fun _ => 7) 0 (frame true p [3, 3])).drop 5)] ++
        List.replicate 1 .unpack)).1.filterMap Except.toOption = [p]) := by
  intro p start
  have hp : ∀ x ∈ [(p, ([3, 3] : Bytes))], Framed x := by
    intro x hx
    obtain rfl := List.mem_singleton.mp hx
    have hplain : MtprotoMessage p :=
      @MtprotoMessage.plain (List.replicate 8 1) [9, 9, 9, 9] rfl (by decide) rfl
    exact ⟨⟨hplain, by decide⟩, by decide⟩
  exact (mtproxy_packets_recovered _ _ true 2 _ [(p, [3, 3])] hp
    [.append _, .unpack, .append _] [] (by decide)).2.1 rfl

end Grammers
