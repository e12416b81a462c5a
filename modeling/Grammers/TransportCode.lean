import Grammers.TransportRead

namespace Grammers

open Checked Incremental

namespace Transport

inductive Kind where
  | full
  | abridged
  | intermediate
  deriving DecidableEq

def new : Kind → Transport
  | .full => .full .new
  | .abridged => .abridged .new
  | .intermediate => .intermediate .new

variable (crc32 : Bytes → UInt32)

/-- Pack payloads one by one, and drop the tag of the connection. -/
def frames : Transport → List Bytes → Except (Fault TransportError) (List Bytes)
  | _, [] => .ok []
  | t, p :: ps => do
    let (packet, t') ← t.pack crc32 p
    let fs ← frames t' ps
    .ok (packet.drop t.initTag.length :: fs)

/-- Unpack until something other than a payload comes, which is returned with what is left. -/
def unpackAll : Nat → Transport → Bytes → Option (List Bytes × Fault TransportError × Bytes)
  | 0, _, _ => none
  | fuel + 1, t, b =>
    match t.unpack crc32 b with
    | (.error e, _) => some ([], e, b)
    | (.ok offset, t') => do
      let (ps, e, rest) ← unpackAll fuel t' (b.drop offset.nextOffset)
      some ((b.drop offset.dataStart).take (offset.dataEnd - offset.dataStart) :: ps, e, rest)

/-- The peer after it has unpacked frames one at a time. -/
def receive (t : Transport) (fs : List Bytes) : Transport :=
  fs.foldl (fun t f => (t.unpack crc32 f).2) t

def reader : Transport → Reader UInt8 (Except TransportError UnpackedOffset)
  | .full t => t.reader crc32
  | .abridged _ => Abridged.reader
  | .intermediate _ => Intermediate.reader

/-- The truncated length of a buffer does not hide a complete frame. -/
def Measured : Transport → Bytes → Prop
  | .full _, b => Full.Measured b
  | _, _ => True

/-- The next packet can still be counted. -/
def Counts : Transport → Prop
  | .full t => t.recvSeq.toInt + 1 < 2 ^ 31
  | _ => True

def received : Transport → Transport
  | .full t => .full { t with recvSeq := t.recvSeq + 1 }
  | t => t

variable {crc32}

theorem toInt_add_one {x : Int32} (h : x.toInt + 1 < 2 ^ 31) : (x + 1).toInt = x.toInt + 1 := by
  have hle := x.le_toInt
  rw [Int32.toInt_add]
  show Int.bmod (x.toInt + 1) _ = _
  exact Int.bmod_eq_of_le_mul_two (by omega) (by omega)

theorem checkedAdd_one {x : Int32} (h : x.toInt + 1 < 2 ^ 31) : checkedAdd x 1 = .ok (x + 1) :=
  if_pos (toInt_add_one h)

/-- What a call returns, from what the reader decides. -/
def outcome (t : Transport) (r : Option (Except TransportError UnpackedOffset)) :
    Except (Fault TransportError) UnpackedOffset × Transport :=
  match r with
  | some (.ok offset) => (.ok offset, t.received)
  | r => (awaited r, t)

theorem unpack_eq {t : Transport} {b : Bytes} (hm : t.Measured b) (hc : t.Counts) :
    t.unpack crc32 b = t.outcome ((t.reader crc32).run b) := by
  cases t with
  | full t =>
    have hread : t.read crc32 b = awaited ((t.reader crc32).run b) := Full.read_eq b hm
    simp only [unpack, Full.unpack, reader, hread, checkedAdd_one hc]
    rcases (t.reader crc32).run b with _ | _ | offset <;> rfl
  | abridged t =>
    simp only [unpack, Abridged.unpack, reader, Abridged.read_eq]
    rcases Abridged.reader.run b with _ | _ | offset <;> rfl
  | intermediate t =>
    simp only [unpack, Intermediate.unpack, reader, Intermediate.read_eq]
    rcases Intermediate.reader.run b with _ | _ | offset <;> rfl

theorem unpack_of_not_measured {t : Transport} {b : Bytes} (hm : ¬t.Measured b) :
    t.unpack crc32 b = (.error (.error .missingBytes), t) := by
  cases t with
  | full t =>
    have hread : t.read crc32 b = .error (.error .missingBytes) := Full.read_of_not_measured hm
    simp only [unpack, Full.unpack, hread]
    rfl
  | abridged t => exact absurd trivial hm
  | intermediate t => exact absurd trivial hm

/-- An offset that stays inside the buffer it was read from. -/
structure Inside (offset : UnpackedOffset) (b : Bytes) : Prop where
  advances : 0 < offset.nextOffset
  ordered : offset.dataStart ≤ offset.dataEnd
  within : offset.dataEnd ≤ offset.nextOffset
  bounded : offset.nextOffset ≤ b.length

theorem Full.inside {t : Full} {b : Bytes} {offset : UnpackedOffset}
    (h : (t.reader crc32).run b = some (.ok offset)) : Inside offset b := by
  obtain ⟨h4, h⟩ := Reader.run_need_some h
  split at h
  · simp at h
  next h12 =>
    rw [Int32.lt_iff_toInt_lt] at h12
    have h12' : 12 ≤ (Full.lengthOf (b.take 4)).toInt := Int.not_lt.mp h12
    obtain ⟨hge, h⟩ := Reader.run_need_some h
    rw [Reader.run_done, Full.check, List.length_take, Nat.min_eq_left hge] at h
    split at h
    · simp at h
    split at h
    · simp at h
    obtain rfl := Except.ok.inj (Option.some.inj h)
    constructor <;> simp only <;> omega

theorem Abridged.inside_body {headerLen words : Nat} {b : Bytes} {offset : UnpackedOffset}
    (hpos : 0 < headerLen) (h : (Abridged.body headerLen words).run b = some (.ok offset)) :
    Inside offset b := by
  obtain ⟨hge, h⟩ := Reader.run_need_some h
  rw [Reader.run_done, Abridged.check] at h
  split at h
  · simp at h
  obtain rfl := Except.ok.inj (Option.some.inj h)
  constructor <;> simp only <;> omega

theorem Abridged.inside {b : Bytes} {offset : UnpackedOffset}
    (h : Abridged.reader.run b = some (.ok offset)) : Inside offset b := by
  obtain ⟨_, h⟩ := Reader.run_need_some h
  split at h
  · exact Abridged.inside_body (by omega) h
  · exact Abridged.inside_body (by omega) (Reader.run_need_some h).2

theorem Intermediate.inside {b : Bytes} {offset : UnpackedOffset}
    (h : Intermediate.reader.run b = some (.ok offset)) : Inside offset b := by
  obtain ⟨_, h⟩ := Reader.run_need_some h
  split at h
  · simp at h
  obtain ⟨hge, h⟩ := Reader.run_need_some h
  rw [Reader.run_done, Intermediate.check, List.length_take, Nat.min_eq_left hge] at h
  split at h
  · simp at h
  obtain rfl := Except.ok.inj (Option.some.inj h)
  constructor <;> simp only <;> omega

theorem inside {t : Transport} {b : Bytes} {offset : UnpackedOffset}
    (h : (t.reader crc32).run b = some (.ok offset)) : Inside offset b := by
  cases t with
  | full t => exact Full.inside h
  | abridged t => exact Abridged.inside h
  | intermediate t => exact Intermediate.inside h

/-- On any bytes, a call ends without a panic, and what it returns is inside them. -/
theorem unpack_total {t : Transport} (b : Bytes) (hc : t.Counts) :
    (∃ offset, t.unpack crc32 b = (.ok offset, t.received) ∧ Inside offset b) ∨
      ∃ e, t.unpack crc32 b = (.error (.error e), t) := by
  by_cases hm : t.Measured b
  · rw [unpack_eq hm hc]
    rcases h : (t.reader crc32).run b with _ | e | offset
    · exact Or.inr ⟨_, rfl⟩
    · exact Or.inr ⟨_, rfl⟩
    · exact Or.inl ⟨offset, rfl, inside h⟩
  · exact Or.inr ⟨_, unpack_of_not_measured hm⟩

/-- A payload that the protocol sends in one packet. -/
structure Payload (p : Bytes) : Prop where
  words : p.length % 4 = 0
  message : 8 ≤ p.length
  short : p.length < 2 ^ 26

/-- A peer that has received what the sender has sent. -/
def Peer : Transport → Transport → Prop
  | .full s, .full r => r.recvSeq = s.sendSeq
  | .abridged _, .abridged _ => True
  | .intermediate _, .intermediate _ => True
  | _, _ => False

/-- The next packet can still be counted by the sender. -/
def Sends : Transport → Prop
  | .full t => t.sendSeq.toInt + 1 < 2 ^ 31
  | _ => True

def sent : Transport → Transport
  | .full t => .full { t with sendSeq := t.sendSeq + 1 }
  | .abridged t => .abridged { t with init := true }
  | .intermediate t => .intermediate { t with init := true }

/-- What a frame adds to its payload. -/
def overhead : Transport → Bytes → Nat
  | .full _, _ => 12
  | .abridged _, p => if p.length / 4 < 127 then 1 else 4
  | .intermediate _, _ => 4

/-- A frame from which a reader takes a payload and nothing else. -/
def Carries (q : Reader UInt8 (Except TransportError UnpackedOffset)) (f p : Bytes) : Prop :=
  ∃ lo hi, q.run f = some (.ok ⟨lo, hi, f.length⟩) ∧ (f.drop lo).take (hi - lo) = p

/-- A part of a frame is not enough for a reader that stays inside what it has. -/
theorem Carries.run_prefix {q : Reader UInt8 (Except TransportError UnpackedOffset)}
    (hin : ∀ {b offset}, q.run b = some (.ok offset) → Inside offset b) {f p b : Bytes}
    (h : Carries q f p) (hb : b <+: f) (hne : b ≠ f) : q.run b = none := by
  obtain ⟨lo, hi, hrun, -⟩ := h
  obtain ⟨rest, hrest⟩ := hb
  rcases hr : q.run b with _ | res
  · rfl
  · rw [← hrest] at hrun
    have hres := Reader.run_eq_of_append hr hrun
    rw [hres] at hr
    have hbound := (hin hr).bounded
    simp only [List.length_append] at hbound
    obtain rfl := List.length_eq_zero_iff.mp (show rest.length = 0 by omega)
    simp at hrest
    exact absurd hrest hne

@[simp]
theorem length_leBytes (x : Int32) : (leBytes x).length = 4 := by simp [leBytes]

theorem ofNat_leBytes (x : Int32) : Int32.ofNat (LittleEndian.ofBytes (leBytes x)) = x := by
  have hlt := x.toUInt32.toNat_lt
  rw [leBytes, LittleEndian.ofBytes_toBytes, Nat.mod_eq_of_lt (by omega), ← UInt32.toInt32_ofNat',
    UInt32.ofNat_toNat, Int32.toInt32_toUInt32]

theorem checkedAdd_ofNat {n k : Nat} (h : n + k < 2 ^ 31) :
    checkedAdd (Int32.ofNat n) (Int32.ofNat k) = .ok (Int32.ofNat (n + k)) := by
  have hsum : Int32.ofNat n + Int32.ofNat k = Int32.ofNat (n + k) := (Int32.ofNat_add n k).symm
  rw [checkedAdd, hsum, Int32.toInt_ofNat_of_lt h, Int32.toInt_ofNat_of_lt (by omega),
    Int32.toInt_ofNat_of_lt (by omega), if_pos (by omega)]

variable (crc32) in
theorem Full.pack_carries {s r : Full} {p : Bytes} (hp : Payload p) (hs : s.sendSeq.toInt + 1 < 2 ^ 31)
    (hpeer : r.recvSeq = s.sendSeq) :
    ∃ f, s.pack crc32 p = .ok (f, { s with sendSeq := s.sendSeq + 1 }) ∧
      f.length = p.length + 12 ∧ Carries (r.reader crc32) f p := by
  have hshort := hp.short
  obtain ⟨head, hhead⟩ : ∃ head, head = leBytes (Int32.ofNat (p.length + 12)) ++
      (leBytes s.sendSeq ++ p) := ⟨_, rfl⟩
  obtain ⟨f, hf⟩ : ∃ f, f = head ++ LittleEndian.toBytes 4 (crc32 head).toNat := ⟨_, rfl⟩
  have hheadLen : head.length = p.length + 8 := by simp [hhead]; omega
  have hlen : f.length = p.length + 12 := by simp [hf, hheadLen]
  refine ⟨f, ?_, hlen, 8, f.length - 4, ?_, ?_⟩
  · have h4 : checkedAdd (Int32.ofNat p.length) 4 = _ := checkedAdd_ofNat (k := 4) (by omega)
    have h8 : checkedAdd (Int32.ofNat (p.length + 4)) 4 = _ := checkedAdd_ofNat (k := 4) (by omega)
    have h12 : checkedAdd (Int32.ofNat (p.length + 4 + 4)) 4 = _ :=
      checkedAdd_ofNat (k := 4) (by omega)
    simp only [Full.pack, hp.words, h4, h8, h12, checkedAdd_one hs, bind, Except.bind, ne_eq,
      not_true_eq_false, ↓reduceIte, hf, hhead, Nat.add_assoc, Nat.reduceAdd]
  · have htake : f.take 4 = leBytes (Int32.ofNat (p.length + 12)) := by
      rw [hf, hhead, List.append_assoc, List.take_left' (by simp)]
    have hlength : Full.lengthOf (f.take 4) = Int32.ofNat (p.length + 12) := by
      rw [htake, Full.lengthOf, ofNat_leBytes]
    have hint : (Int32.ofNat (p.length + 12)).toInt = p.length + 12 := by
      rw [Int32.toInt_ofNat_of_lt (by omega)]
      rfl
    have h12 : ¬Int32.ofNat (p.length + 12) < 12 := by
      rw [Int32.lt_iff_toInt_lt, hint]
      show ¬(_ < (12 : Int))
      omega
    rw [Full.reader, Reader.run_need_of_le _ (by omega), hlength]
    simp only [h12, ↓reduceIte, hint]
    rw [Reader.run_need_of_le _ (by omega), Reader.run_done, List.take_of_length_le (by omega)]
    have hseq : (f.drop 4).take 4 = leBytes s.sendSeq := by
      rw [hf, hhead, List.append_assoc, List.drop_left' (by simp), List.append_assoc,
        List.take_left' (by simp)]
    have hsplit : f.length - 4 = head.length := by omega
    have hcrc : UInt32.ofNat (LittleEndian.ofBytes (f.drop (f.length - 4))) = crc32 head := by
      have hlt := (crc32 head).toNat_lt
      rw [hsplit, hf, List.drop_left, LittleEndian.ofBytes_toBytes, Nat.mod_eq_of_lt (by omega),
        UInt32.ofNat_toNat]
    have hvalid : f.take (f.length - 4) = head := by rw [hsplit, hf, List.take_left]
    simp only [Full.check, hseq, ofNat_leBytes, hpeer, hcrc, hvalid, ne_eq, not_true_eq_false,
      ↓reduceIte]
  · have hdata : f.length - 4 - 8 = p.length := by omega
    rw [hdata, hf, hhead, List.append_assoc, List.append_assoc, ← List.append_assoc,
      List.drop_left' (by simp), List.take_left]

theorem Abridged.header_long {n : Nat} (h : 127 ≤ n) (hlt : n < 2 ^ 24) :
    Abridged.header n = 127 :: LittleEndian.toBytes 3 n := by
  have hshift : (UInt32.ofNat n <<< 8).toNat = n <<< 8 := by
    rw [UInt32.toNat_shiftLeft, UInt32.toNat_ofNat_of_lt' (by show n < 2 ^ 32; omega),
      Nat.shiftLeft_eq, Nat.shiftLeft_eq]
    exact Nat.mod_eq_of_lt (by show n * 256 < _; omega)
  have hor : ((0x7f : UInt32) ||| (UInt32.ofNat n <<< 8)).toNat = 127 + 256 * n := by
    rw [UInt32.toNat_or, hshift, Nat.or_comm]
    show n <<< 8 ||| 127 = _
    rw [← Nat.shiftLeft_add_eq_or_of_lt (by omega), Nat.shiftLeft_eq]
    omega
  have hdiv : (127 + 256 * n) / 256 = n := by omega
  have hmod : UInt8.ofNat (127 + 256 * n) = 127 := by
    apply UInt8.toNat_inj.mp
    rw [UInt8.toNat_ofNat']
    show _ = 127
    omega
  rw [Abridged.header, if_neg (by omega), hor, LittleEndian.toBytes_succ, hdiv, hmod]

theorem Abridged.body_carries {headerLen words : Nat} {p : Bytes} (header : Bytes)
    (hheader : header.length = headerLen) (hwords : p.length = words * 4) (hp : Payload p) :
    Carries (Abridged.body headerLen words) (header ++ p) p := by
  have hmessage := hp.message
  have hlen : (header ++ p).length = headerLen + words * 4 := by simp [hheader, hwords]
  refine ⟨headerLen, headerLen + words * 4, ?_, ?_⟩
  · rw [Abridged.body, Reader.run_need_of_le _ hlen.ge, Reader.run_done, Abridged.check,
      if_neg (by omega), hlen]
  · rw [List.drop_left' hheader, List.take_of_length_le (by omega)]

theorem Abridged.frame_carries {p : Bytes} (hp : Payload p) :
    (Abridged.header (p.length / 4) ++ p).length =
        p.length + (if p.length / 4 < 127 then 1 else 4) ∧
      Carries Abridged.reader (Abridged.header (p.length / 4) ++ p) p := by
  have hshort := hp.short
  have hwords : p.length = p.length / 4 * 4 := by
    have := hp.words
    omega
  by_cases h : p.length / 4 < 127
  · have hfirst : UInt8.ofNat (p.length / 4) < 127 := by
      rw [UInt8.lt_iff_toNat_lt, UInt8.toNat_ofNat_of_lt' (by show _ < 256; omega)]
      exact h
    have hnat : (UInt8.ofNat (p.length / 4)).toNat = p.length / 4 :=
      UInt8.toNat_ofNat_of_lt' (by show _ < 256; omega)
    have hheader : Abridged.header (p.length / 4) = [UInt8.ofNat (p.length / 4)] := if_pos h
    obtain ⟨lo, hi, hrun, hdata⟩ := Abridged.body_carries [UInt8.ofNat (p.length / 4)] rfl hwords hp
    rw [hheader, if_pos h]
    refine ⟨by simp, lo, hi, ?_, hdata⟩
    rw [Abridged.reader, Reader.run_need_of_le _ (by simp)]
    simp only [List.cons_append, List.nil_append, List.take_succ_cons, List.headD_cons, hfirst, hnat,
      ↓reduceIte]
    exact hrun
  · have hheader := Abridged.header_long (Nat.not_lt.mp h) (by omega)
    have hfour : (127 :: LittleEndian.toBytes 3 (p.length / 4)).length = 4 := by simp
    obtain ⟨lo, hi, hrun, hdata⟩ := Abridged.body_carries _ hfour hwords hp
    rw [hheader, if_neg h]
    refine ⟨by simp; omega, lo, hi, ?_, hdata⟩
    have hwordsOf : Abridged.wordsOf ((127 :: LittleEndian.toBytes 3 (p.length / 4) ++ p).take 4) =
        p.length / 4 := by
      rw [Abridged.wordsOf, List.take_left' (by simp), List.drop_succ_cons, List.drop_zero,
        LittleEndian.ofBytes_toBytes, Nat.mod_eq_of_lt (by omega)]
    rw [Abridged.reader, Reader.run_need_of_le _ (by simp), List.cons_append, List.take_succ_cons,
      List.headD_cons, if_neg (by decide), Reader.run_need_of_le _ (by simp), ← List.cons_append,
      hwordsOf]
    exact hrun

theorem Intermediate.frame_carries {p : Bytes} (hp : Payload p) :
    Carries Intermediate.reader (leBytes (Int32.ofNat p.length) ++ p) p := by
  have hshort := hp.short
  have hmessage := hp.message
  obtain ⟨f, hf⟩ : ∃ f, f = leBytes (Int32.ofNat p.length) ++ p := ⟨_, rfl⟩
  have hlen : f.length = 4 + p.length := by simp [hf]
  have htake : f.take 4 = leBytes (Int32.ofNat p.length) := by rw [hf, List.take_left' (by simp)]
  have hint : (Int32.ofNat p.length).toInt = p.length := Int32.toInt_ofNat_of_lt (by omega)
  have hlength : Intermediate.lengthOf (f.take 4) = Int32.ofNat p.length := by
    rw [htake, Intermediate.lengthOf, ofNat_leBytes]
  have h4 : ¬Int32.ofNat p.length < 4 := by
    rw [Int32.lt_iff_toInt_lt, hint]
    show ¬(_ < (4 : Int))
    omega
  rw [← hf]
  refine ⟨4, f.length, ?_, ?_⟩
  · rw [Intermediate.reader, Reader.run_need_of_le _ (by omega), hlength, if_neg h4, hint,
      Reader.run_need_of_le _ (by omega), Reader.run_done, List.take_of_length_le (by omega),
      Intermediate.check, if_neg (by omega)]
  · rw [hf, List.drop_left' (by simp), List.take_of_length_le (by simp)]

/-- What is packed for a payload is the tag, where it is due, and a frame that carries it. -/
theorem pack_carries {s r : Transport} {p : Bytes} (hp : Payload p) (hs : s.Sends)
    (hpeer : s.Peer r) :
    ∃ f, s.pack crc32 p = .ok (s.initTag ++ f, s.sent) ∧ f.length = p.length + s.overhead p ∧
      Carries (r.reader crc32) f p := by
  match s, r, hpeer with
  | .full s, .full r, hpeer =>
    obtain ⟨f, hpack, hlen, hcarries⟩ := Full.pack_carries crc32 hp hs hpeer
    exact ⟨f, by rw [pack, hpack]; rfl, hlen, hcarries⟩
  | .abridged s, .abridged r, _ =>
    obtain ⟨hlen, hcarries⟩ := Abridged.frame_carries hp
    refine ⟨_, ?_, hlen, hcarries⟩
    obtain ⟨init⟩ := s
    simp only [pack, Abridged.pack, hp.words, ne_eq, not_true_eq_false, ↓reduceIte]
    cases init <;> rfl
  | .intermediate s, .intermediate r, _ =>
    refine ⟨leBytes (Int32.ofNat p.length) ++ p, ?_, by simp [overhead, Nat.add_comm],
      Intermediate.frame_carries hp⟩
    obtain ⟨init⟩ := s
    simp only [pack, Intermediate.pack, hp.words, ne_eq, not_true_eq_false, ↓reduceIte]
    cases init <;> rfl

/-! A connection: frames in the order in which they were packed. -/

/-- A frame followed by so many bytes is seen whole. -/
def Sees : Transport → Bytes → Nat → Prop
  | .full _, p, after => ((p.length + 12 : Nat) : Int) ≤ (Int32.ofNat (p.length + 12 + after)).toInt
  | _, _, _ => True

/-- The bytes of the frames of payloads. -/
def streamLength (t : Transport) (ps : List Bytes) : Nat :=
  (ps.map fun p => p.length + t.overhead p).sum

variable (crc32) in
/-- Frames that a peer can take one after another. -/
inductive Train : Transport → List Bytes → List Bytes → Prop where
  | nil (r : Transport) : Train r [] []
  | cons {r : Transport} {p f : Bytes} {ps fs : List Bytes} (payload : Payload p)
      (carries : Carries (r.reader crc32) f p) (length : f.length = p.length + r.overhead p)
      (counts : r.Counts) (rest : Train r.received ps fs) : Train r (p :: ps) (f :: fs)

def Room : Transport → Nat → Prop
  | .full t, n => t.sendSeq.toInt + n < 2 ^ 31
  | _, _ => True

theorem Room.sends {s : Transport} {n : Nat} (h : s.Room (n + 1)) : s.Sends := by
  cases s with
  | full t =>
    simp only [Room, Sends] at h ⊢
    omega
  | abridged t => trivial
  | intermediate t => trivial

theorem Room.sent {s : Transport} {n : Nat} (h : s.Room (n + 1)) : s.sent.Room n := by
  have hsends := h.sends
  cases s with
  | full t =>
    simp only [Room, Transport.sent, toInt_add_one hsends] at h ⊢
    omega
  | abridged t => trivial
  | intermediate t => trivial

theorem Peer.counts {s r : Transport} (h : s.Peer r) (hs : s.Sends) : r.Counts := by
  match s, r, h with
  | .full s, .full r, h =>
    simp only [Peer, Sends, Counts] at h hs ⊢
    rwa [h]
  | .abridged _, .abridged _, _ => trivial
  | .intermediate _, .intermediate _, _ => trivial

theorem Peer.advance {s r : Transport} (h : s.Peer r) : s.sent.Peer r.received := by
  match s, r, h with
  | .full s, .full r, h => exact congrArg (· + 1) h
  | .abridged _, .abridged _, _ => trivial
  | .intermediate _, .intermediate _, _ => trivial

theorem Peer.overhead {s r : Transport} (h : s.Peer r) (p : Bytes) : s.overhead p = r.overhead p := by
  match s, r, h with
  | .full _, .full _, _ => rfl
  | .abridged _, .abridged _, _ => rfl
  | .intermediate _, .intermediate _, _ => rfl

variable (crc32) in
theorem frames_train {s r : Transport} {ps : List Bytes} (hps : ∀ p ∈ ps, Payload p)
    (hroom : s.Room ps.length) (hpeer : s.Peer r) :
    ∃ fs, frames crc32 s ps = .ok fs ∧ Train crc32 r ps fs := by
  induction ps generalizing s r with
  | nil => exact ⟨[], rfl, .nil r⟩
  | cons p ps ih =>
    obtain ⟨f, hpack, hlen, hcarries⟩ :=
      pack_carries (hps p List.mem_cons_self) hroom.sends hpeer
    obtain ⟨fs, hframes, htrain⟩ :=
      ih (fun q hq => hps q (List.mem_cons_of_mem _ hq)) hroom.sent hpeer.advance
    refine ⟨f :: fs, ?_, .cons (hps p List.mem_cons_self) hcarries ?_ (hpeer.counts hroom.sends) htrain⟩
    · simp only [frames, hpack, hframes, bind, Except.bind, List.drop_left]
    · rw [hlen, hpeer.overhead]

theorem Full.lengthOf_carries {r : Full} {f p : Bytes} (h : Carries (r.reader crc32) f p) :
    12 ≤ (Full.lengthOf (f.take 4)).toInt ∧ (Full.lengthOf (f.take 4)).toInt = f.length := by
  obtain ⟨lo, hi, hrun, -⟩ := h
  obtain ⟨-, hrun⟩ := Reader.run_need_some hrun
  split at hrun
  · simp at hrun
  next h12 =>
    rw [Int32.lt_iff_toInt_lt] at h12
    have h12' : 12 ≤ (Full.lengthOf (f.take 4)).toInt := Int.not_lt.mp h12
    obtain ⟨hge, hrun⟩ := Reader.run_need_some hrun
    rw [Reader.run_done, Full.check, List.length_take, Nat.min_eq_left hge] at hrun
    split at hrun
    · simp at hrun
    split at hrun
    · simp at hrun
    have hnext := congrArg UnpackedOffset.nextOffset (Except.ok.inj (Option.some.inj hrun))
    simp only at hnext
    exact ⟨h12', by omega⟩

/-- Whether a frame is seen whole depends on lengths only. -/
theorem measured_iff_sees {r : Transport} {f p rest : Bytes} (h : Carries (r.reader crc32) f p)
    (hlen : f.length = p.length + r.overhead p) :
    r.Measured (f ++ rest) ↔ r.Sees p rest.length := by
  cases r with
  | full r =>
    obtain ⟨h12, hint⟩ := Full.lengthOf_carries h
    have htake : (f ++ rest).take 4 = f.take 4 := List.take_append_of_le_length (by omega)
    have hlength : (f ++ rest).length = p.length + 12 + rest.length := by
      rw [List.length_append, hlen]
      rfl
    have hf : f.length = p.length + 12 := hlen
    simp only [Measured, Full.Measured, htake, hint, Sees, hlength, Int32.le_iff_toInt_le, hf]
    constructor
    · intro hm
      exact hm (by omega) (by omega)
    · intro hm _ _
      exact hm
  | abridged r => exact Iff.rfl
  | intermediate r => exact Iff.rfl

/-- What follows a frame that is seen whole makes no difference. -/
theorem unpack_append {r : Transport} {f p rest : Bytes} (h : Carries (r.reader crc32) f p)
    (hlen : f.length = p.length + r.overhead p) (hc : r.Counts) (hsees : r.Sees p rest.length) :
    r.unpack crc32 (f ++ rest) = r.outcome ((r.reader crc32).run f) := by
  have hm := (measured_iff_sees h hlen).mpr hsees
  obtain ⟨lo, hi, hrun, -⟩ := h
  rw [unpack_eq hm hc, Reader.run_append hrun, hrun]

theorem unpack_frame {r : Transport} {f p rest : Bytes} (h : Carries (r.reader crc32) f p)
    (hlen : f.length = p.length + r.overhead p) (hc : r.Counts) (hsees : r.Sees p rest.length) :
    ∃ lo hi, r.unpack crc32 (f ++ rest) = (.ok ⟨lo, hi, f.length⟩, r.received) ∧
      ((f ++ rest).drop lo).take (hi - lo) = p := by
  have hunpack := unpack_append h hlen hc hsees
  obtain ⟨lo, hi, hrun, hdata⟩ := h
  have hin := inside hrun
  refine ⟨lo, hi, ?_, ?_⟩
  · rw [hunpack, hrun]
    rfl
  · have hle : lo ≤ hi := hin.ordered
    have hhi : hi ≤ f.length := hin.within
    rw [take_drop_append (by omega), hdata]

theorem sees_of_lt {r : Transport} {p : Bytes} {after : Nat} (h : p.length + 12 + after < 2 ^ 31) :
    r.Sees p after := by
  cases r with
  | full r =>
    simp only [Sees, Int32.toInt_ofNat_of_lt h]
    omega
  | abridged r => trivial
  | intermediate r => trivial

theorem Payload.sees {p : Bytes} (hp : Payload p) (r : Transport) : r.Sees p 0 := by
  have := hp.short
  exact sees_of_lt (by omega)

/-- A frame alone is taken. -/
theorem unpack_alone {r : Transport} {f p : Bytes} (hp : Payload p)
    (h : Carries (r.reader crc32) f p) (hlen : f.length = p.length + r.overhead p) (hc : r.Counts) :
    r.unpack crc32 f = r.outcome ((r.reader crc32).run f) ∧
      ∃ lo hi, r.unpack crc32 f = (.ok ⟨lo, hi, f.length⟩, r.received) := by
  have hsees : r.Sees p ([] : Bytes).length := hp.sees r
  obtain ⟨lo, hi, hunpack, -⟩ := unpack_frame h hlen hc hsees
  have happend := unpack_append h hlen hc hsees
  rw [List.append_nil] at hunpack happend
  exact ⟨happend, lo, hi, hunpack⟩

theorem overhead_le (r : Transport) (p : Bytes) : r.overhead p ≤ 12 := by
  cases r with
  | full r => exact le_rfl
  | abridged r =>
    simp only [overhead]
    split <;> omega
  | intermediate r =>
    simp only [overhead]
    omega

theorem measured_of_lt {r : Transport} {b : Bytes} (h : b.length < 2 ^ 31) : r.Measured b := by
  cases r with
  | full r => exact Full.measured_of_lt h
  | abridged r => trivial
  | intermediate r => trivial

/-- A part of a frame is not taken, and nothing is remembered of it. -/
theorem unpack_prefix {r : Transport} {f p q : Bytes} (hp : Payload p)
    (h : Carries (r.reader crc32) f p) (hlen : f.length = p.length + r.overhead p) (hc : r.Counts)
    (hq : q <+: f) (hne : q ≠ f) : r.unpack crc32 q = (.error (.error .missingBytes), r) := by
  have hshort := hp.short
  have hover := r.overhead_le p
  have hle := hq.length_le
  have hnone := h.run_prefix inside hq hne
  rw [unpack_eq (measured_of_lt (by omega)) hc, hnone]
  rfl

theorem unpack_nil (r : Transport) :
    r.unpack crc32 [] = (.error (.error .missingBytes), r) := by
  cases r <;> rfl

/-- Every frame is seen whole in what is left of the stream. -/
def SeesAll (r : Transport) : List Bytes → Prop
  | [] => True
  | p :: ps => r.Sees p (r.streamLength ps) ∧ r.SeesAll ps

theorem sees_received (r : Transport) (p : Bytes) (after : Nat) :
    r.received.Sees p after ↔ r.Sees p after := by
  cases r <;> rfl

theorem streamLength_received (r : Transport) (ps : List Bytes) :
    r.received.streamLength ps = r.streamLength ps := by
  cases r <;> rfl

theorem seesAll_received (r : Transport) (ps : List Bytes) :
    r.received.SeesAll ps ↔ r.SeesAll ps := by
  induction ps with
  | nil => exact Iff.rfl
  | cons p ps ih => rw [SeesAll, SeesAll, ih, streamLength_received, sees_received]

theorem Train.length_flatten {r : Transport} {ps fs : List Bytes} (h : Train crc32 r ps fs) :
    fs.flatten.length = r.streamLength ps := by
  induction h with
  | nil r => rfl
  | cons _ _ hlen _ _ ih =>
    rw [streamLength_received] at ih
    rw [List.flatten_cons, List.length_append, ih, hlen]
    simp [streamLength]

/-- Unpacking the whole stream gives the payloads and nothing else exactly where every frame is
seen. -/
theorem Train.unpackAll_iff {r : Transport} {ps fs : List Bytes} (h : Train crc32 r ps fs)
    {fuel : Nat} (hfuel : ps.length < fuel) :
    unpackAll crc32 fuel r fs.flatten = some (ps, .error .missingBytes, []) ↔ r.SeesAll ps := by
  induction h generalizing fuel with
  | nil r =>
    obtain ⟨fuel, rfl⟩ := Nat.exists_eq_succ_of_ne_zero (by omega : fuel ≠ 0)
    simp only [List.flatten_nil, unpackAll, unpack_nil, SeesAll]
  | @cons r p f ps fs hp hcarries hlen hcounts hrest ih =>
    obtain ⟨fuel, rfl⟩ := Nat.exists_eq_succ_of_ne_zero (by omega : fuel ≠ 0)
    have hih := ih (show ps.length < fuel by simp at hfuel; omega)
    rw [seesAll_received] at hih
    have hstream : fs.flatten.length = r.streamLength ps := by
      rw [hrest.length_flatten, streamLength_received]
    by_cases hsees : r.Sees p (r.streamLength ps)
    · rw [← hstream] at hsees
      obtain ⟨lo, hi, hunpack, hdata⟩ := unpack_frame hcarries hlen hcounts hsees
      simp only [List.flatten_cons, unpackAll, hunpack, hdata, List.drop_left, SeesAll, ← hstream,
        hsees, true_and]
      rw [← hih]
      rcases unpackAll crc32 fuel r.received fs.flatten with _ | ⟨qs, e, left⟩ <;>
        simp [bind, Option.bind]
    · have hmiss : r.unpack crc32 (f ++ fs.flatten) = (.error (.error .missingBytes), r) := by
        apply unpack_of_not_measured
        rw [measured_iff_sees hcarries hlen, hstream]
        exact hsees
      simp [unpackAll, hmiss, SeesAll, hsees]

theorem Train.receive {r : Transport} {ps fs : List Bytes} (h : Train crc32 r ps fs)
    {pre post : List Bytes} {f : Bytes} (hsplit : fs = pre ++ f :: post) :
    ∃ p post', p ∈ ps ∧ Train crc32 (receive crc32 r pre) (p :: post') (f :: post) := by
  induction h generalizing pre with
  | nil r => simp at hsplit
  | @cons r p f' ps fs hp hcarries hlen hcounts hrest ih =>
    cases pre with
    | nil =>
      obtain ⟨rfl, rfl⟩ := List.cons.inj hsplit
      exact ⟨p, ps, List.mem_cons_self, .cons hp hcarries hlen hcounts hrest⟩
    | cons g pre =>
      rw [List.cons_append] at hsplit
      obtain ⟨rfl, htail⟩ := List.cons.inj hsplit
      obtain ⟨q, post', hq, htrain⟩ := ih htail
      obtain ⟨-, lo, hi, hunpack⟩ := unpack_alone hp hcarries hlen hcounts
      refine ⟨q, post', List.mem_cons_of_mem _ hq, ?_⟩
      simpa [Transport.receive, hunpack] using htrain

theorem Train.length_le {r : Transport} {ps fs : List Bytes} (h : Train crc32 r ps fs) :
    ps.length ≤ fs.flatten.length := by
  induction h with
  | nil r => simp
  | cons hp _ hlen _ _ ih =>
    have := hp.message
    simp only [List.length_cons, List.flatten_cons, List.length_append]
    omega

def kind : Transport → Kind
  | .full _ => .full
  | .abridged _ => .abridged
  | .intermediate _ => .intermediate

theorem kind_receive (r : Transport) (fs : List Bytes) : (receive crc32 r fs).kind = r.kind := by
  induction fs generalizing r with
  | nil => rfl
  | cons f fs ih =>
    rw [receive, List.foldl_cons]
    refine (ih _).trans ?_
    cases r <;> rfl

theorem sees_kind {r t : Transport} (h : r.kind = t.kind) (p : Bytes) (after : Nat) :
    r.Sees p after ↔ t.Sees p after := by
  cases r <;> cases t <;> first | exact Iff.rfl | simp [kind] at h

variable (crc32) in
/-- The frames of payloads on a new connection decode to them, whatever follows. -/
structure PrefixCode (kind : Kind) (ps : List Bytes) (rest : Bytes) : Prop where
  decoded : ∃ fs, frames crc32 (new kind) ps = .ok fs ∧
    unpackAll crc32 (fs.flatten.length + 1) (new kind) fs.flatten =
      some (ps, .error .missingBytes, [])
  prefixes : ∀ fs pre f post, frames crc32 (new kind) ps = .ok fs → fs = pre ++ f :: post →
    ∀ q, q <+: f → q ≠ f → (receive crc32 (new kind) pre).unpack crc32 q =
      (.error (.error .missingBytes), receive crc32 (new kind) pre)
  independent : ∀ fs pre f post, frames crc32 (new kind) ps = .ok fs → fs = pre ++ f :: post →
    (receive crc32 (new kind) pre).unpack crc32 (f ++ rest) =
      (receive crc32 (new kind) pre).unpack crc32 f
  total : ∀ t : Transport, t.kind = kind → t.Counts → ∀ b,
    (t.unpack crc32 b).1 ≠ .error .panic ∧
      ∀ offset, (t.unpack crc32 b).1 = .ok offset → Inside offset b

theorem peer_new (kind : Kind) : (new kind).Peer (new kind) := by
  cases kind with
  | full => rfl
  | abridged => trivial
  | intermediate => trivial

theorem room_new (kind : Kind) {n : Nat} (h : n < 2 ^ 31) : (new kind).Room n := by
  cases kind with
  | full =>
    show (0 : Int32).toInt + n < 2 ^ 31
    rw [Int32.toInt_zero]
    omega
  | abridged => trivial
  | intermediate => trivial

/-- A frame that is not seen whole before other bytes is not taken there. -/
theorem Train.sees_of_unpack {r : Transport} {p f rest : Bytes} {ps fs : List Bytes}
    (h : Train crc32 r (p :: ps) (f :: fs))
    (heq : r.unpack crc32 (f ++ rest) = r.unpack crc32 f) : r.Sees p rest.length := by
  obtain _ | ⟨hp, hcarries, hlen, hcounts, -⟩ := h
  by_contra hsees
  rw [← measured_iff_sees hcarries hlen] at hsees
  obtain ⟨-, lo, hi, halone⟩ := unpack_alone hp hcarries hlen hcounts
  rw [unpack_of_not_measured hsees, halone] at heq
  simp at heq

theorem Train.split {r : Transport} {ps fs : List Bytes} (h : Train crc32 r ps fs) {p : Bytes}
    (hp : p ∈ ps) : ∃ pre f post post', fs = pre ++ f :: post ∧
      Train crc32 (Transport.receive crc32 r pre) (p :: post') (f :: post) := by
  induction h with
  | nil r => simp at hp
  | @cons r q f ps fs hq hcarries hlen hcounts hrest ih =>
    rcases List.mem_cons.mp hp with rfl | hmem
    · exact ⟨[], f, fs, ps, rfl, .cons hq hcarries hlen hcounts hrest⟩
    · obtain ⟨pre, g, post, post', hsplit, htrain⟩ := ih hmem
      obtain ⟨-, lo, hi, hunpack⟩ := unpack_alone hq hcarries hlen hcounts
      refine ⟨f :: pre, g, post, post', by rw [hsplit]; rfl, ?_⟩
      simpa [Transport.receive, hunpack] using htrain

variable {kind : Kind} {ps : List Bytes} {rest : Bytes}

theorem PrefixCode.sees (h : PrefixCode crc32 kind ps rest) (hps : ∀ p ∈ ps, Payload p)
    (hcount : ps.length < 2 ^ 31) :
    (new kind).SeesAll ps ∧ ∀ p ∈ ps, (new kind).Sees p rest.length := by
  obtain ⟨fs, hframes, htrain⟩ := frames_train crc32 hps (room_new kind hcount) (peer_new kind)
  refine ⟨?_, fun p hp => ?_⟩
  · obtain ⟨fs', hframes', hdecoded⟩ := h.decoded
    obtain rfl := Except.ok.inj (hframes.symm.trans hframes')
    exact (htrain.unpackAll_iff (Nat.lt_succ_of_le htrain.length_le)).mp hdecoded
  · obtain ⟨pre, f, post, post', hsplit, hlast⟩ := htrain.split hp
    have hsees := hlast.sees_of_unpack (h.independent fs pre f post hframes hsplit)
    exact (sees_kind (kind_receive _ pre) p _).mp hsees

/-- Framing is a prefix code exactly where no truncated length hides a frame. -/
theorem framing_prefix_code_iff (hps : ∀ p ∈ ps, Payload p) (hcount : ps.length < 2 ^ 31) :
    PrefixCode crc32 kind ps rest ↔
      (new kind).SeesAll ps ∧ ∀ p ∈ ps, (new kind).Sees p rest.length := by
  refine ⟨fun h => h.sees hps hcount, fun ⟨hall, hrest⟩ => ?_⟩
  obtain ⟨fs, hframes, htrain⟩ := frames_train crc32 hps (room_new kind hcount) (peer_new kind)
  refine ⟨⟨fs, hframes, ?_⟩, ?_, ?_, ?_⟩
  · exact (htrain.unpackAll_iff (Nat.lt_succ_of_le htrain.length_le)).mpr hall
  · intro fs' pre f post hframes' hsplit q hq hne
    obtain rfl := Except.ok.inj (hframes.symm.trans hframes')
    obtain ⟨p, post', -, hlast⟩ := htrain.receive hsplit
    obtain _ | ⟨hp, hcarries, hlen, hcounts, -⟩ := hlast
    exact unpack_prefix hp hcarries hlen hcounts hq hne
  · intro fs' pre f post hframes' hsplit
    obtain rfl := Except.ok.inj (hframes.symm.trans hframes')
    obtain ⟨p, post', hmem, hlast⟩ := htrain.receive hsplit
    have hsees : (Transport.receive crc32 (new kind) pre).Sees p rest.length :=
      (sees_kind (kind_receive _ pre) p _).mpr (hrest p hmem)
    obtain _ | ⟨hp, hcarries, hlen, hcounts, -⟩ := hlast
    exact (unpack_append hcarries hlen hcounts hsees).trans
      (unpack_alone hp hcarries hlen hcounts).1.symm
  · intro t ht hc b
    rcases t.unpack_total b hc with ⟨offset, hunpack, hin⟩ | ⟨e, hunpack⟩
    · rw [hunpack]
      refine ⟨by simp, fun offset' h => ?_⟩
      obtain rfl := Except.ok.inj h
      exact hin
    · rw [hunpack]
      exact ⟨by simp, fun offset' h => by simp at h⟩

/-- The checksum of the full transport. -/
def crc32Ieee (bytes : Bytes) : UInt32 :=
  let shift (crc : UInt32) : UInt32 :=
    if crc &&& 1 = 1 then (crc >>> 1) ^^^ 0xedb88320 else crc >>> 1
  let step (crc : UInt32) (byte : UInt8) : UInt32 :=
    (List.range 8).foldl (fun crc _ => shift crc) (crc ^^^ byte.toUInt32)
  bytes.foldl step 0xffffffff ^^^ 0xffffffff

example : crc32Ieee [12, 0, 0, 0, 0, 0, 0, 0] = 0x328dca26 := by decide +kernel

theorem payload_zeros : Payload (List.replicate 8 0) := ⟨rfl, le_rfl, by decide⟩

theorem framing_prefix_code_iff_two : PrefixCode crc32Ieee .full
    [List.replicate 8 0, List.replicate 8 0] [1, 2, 3] ↔
      (new .full).SeesAll [List.replicate 8 0, List.replicate 8 0] ∧
        ∀ p ∈ [List.replicate 8 0, List.replicate 8 (0 : UInt8)], (new .full).Sees p 3 :=
  framing_prefix_code_iff (by simpa using payload_zeros) (by decide)

/-- After a frame, 2^31 more bytes make the length of the buffer negative. -/
theorem framing_hidden_by_large_buffer :
    ¬∀ (crc32 : Bytes → UInt32) (kind : Kind) (ps : List Bytes) (rest : Bytes),
      (∀ p ∈ ps, Payload p) → ps.length < 2 ^ 31 → PrefixCode crc32 kind ps rest := by
  intro h
  have hps : ∀ p ∈ [List.replicate 8 (0 : UInt8)], Payload p := by simpa using payload_zeros
  have hcode := h crc32Ieee .full _ (List.replicate (2 ^ 31) 0) hps (by decide)
  have hsees := (hcode.sees hps (by decide)).2 _ List.mem_cons_self
  rw [List.length_replicate] at hsees
  have hhidden : ¬((20 : Nat) : Int) ≤ (Int32.ofNat (20 + 2 ^ 31)).toInt := by decide
  exact hhidden hsees

end Transport

end Grammers
