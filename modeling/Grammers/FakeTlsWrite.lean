import Grammers.FakeTls

namespace Grammers

namespace FakeTlsStream

/-- A record as far as it has been written, and how much it announced. -/
structure Record where
  announced : Nat
  body : Bytes

def Record.bytes (r : Record) : Bytes := applicationHeader r.announced ++ r.body

def Record.Sized (r : Record) : Prop := 1 ≤ r.announced ∧ r.announced ≤ tlsRecordMax

/-- What has been written of a stream: whole records and then one that lacks so many bytes, with
no more than a part of its header missing. -/
structure Outgoing (written accepted : Bytes) (left : Nat) (records : List Record) : Prop where
  sized : ∀ r ∈ records, r.Sized
  whole : ∀ r ∈ records.dropLast, r.body.length = r.announced
  last : ∀ r ∈ records.getLast?, r.body.length + left = r.announced
  idle : records = [] → left = 0
  accepted_eq : records.flatMap Record.body = accepted
  written_eq : ∃ unsent, written ++ unsent = tlsCcs ++ records.flatMap Record.bytes ∧
    (unsent ≠ [] → ∀ r ∈ records.getLast?, r.body = [])

/-- The record that is being written, after those that have been. -/
structure Writing (s : FakeTlsStream) (accepted : Bytes) (whole : List Record) (r : Record) :
    Prop where
  sized : ∀ r' ∈ whole ++ [r], r'.Sized
  whole_eq : ∀ r' ∈ whole, r'.body.length = r'.announced
  left : r.body.length + s.txLeft = r.announced
  first : s.first = false
  capacity : s.txHeader.length = 11
  header : s.txAt ≤ s.txLen ∧ s.txLen ≤ 11
  unsent_first : s.txAt < s.txLen → r.body = []
  accepted_eq : (whole ++ [r]).flatMap Record.body = accepted
  written_eq : s.written ++ s.unsent = tlsCcs ++ (whole ++ [r]).flatMap Record.bytes

/-- A stream that has not been written to, or one with a record that is being written. -/
inductive Writes (s : FakeTlsStream) (accepted : Bytes) : Prop where
  | fresh (first : s.first = true) (left : s.txLeft = 0) (capacity : s.txHeader.length = 11)
      (written : s.written = []) (accepted_eq : accepted = [])
  | writing (whole : List Record) (r : Record) (h : Writing s accepted whole r)

variable {s s' : FakeTlsStream} {accepted bytes : Bytes} {whole : List Record} {r : Record}

theorem Writing.length_unsent (h : Writing s accepted whole r) :
    s.unsent.length = s.txLen - s.txAt := by
  have hcap := h.capacity
  have hlen := h.header
  simp only [unsent, List.length_take, List.length_drop]
  omega

theorem Writing.unsent_eq_nil (h : Writing s accepted whole r) (hat : ¬s.txAt < s.txLen) :
    s.unsent = [] := by
  have := h.length_unsent
  exact List.length_eq_zero_iff.mp (by omega)

theorem Writes.outgoing (h : Writes s accepted) :
    ∃ records, Outgoing s.written accepted s.txLeft records := by
  cases h with
  | fresh first left capacity written accepted_eq =>
    subst accepted_eq
    refine ⟨[], nofun, nofun, nofun, fun _ => left, rfl, tlsCcs, ?_, fun _ => nofun⟩
    rw [written]
    rfl
  | writing whole r h =>
    have hlast : (whole ++ [r]).getLast? = some r := List.getLast?_concat
    refine ⟨whole ++ [r], h.sized, ?_, ?_, by simp, h.accepted_eq, s.unsent, h.written_eq, ?_⟩
    · rw [List.dropLast_concat]
      exact h.whole_eq
    · rw [hlast]
      rintro _ ⟨⟩
      exact h.left
    · rw [hlast]
      rintro hne _ ⟨⟩
      apply h.unsent_first
      by_contra hat
      exact hne (h.unsent_eq_nil hat)

theorem take_overwrite (b w : Bytes) (start : Nat) (h : start + w.length ≤ b.length) :
    (overwrite b start w).take (start + w.length) = b.take start ++ w := by
  have hlen : (b.take start ++ w).length = start + w.length := by simp; omega
  rw [overwrite, ← List.append_assoc, List.take_left' hlen]

/-- The header of a record, after what was there before it. -/
theorem take_header (b : Bytes) (start size : Nat) (h : start + 5 ≤ b.length) :
    (overwrite (overwrite b start [0x17, 3, 3]) (start + 3) (BigEndian.toBytes 2 size)).take
      (start + 5) = b.take start ++ applicationHeader size := by
  have htwo : (BigEndian.toBytes 2 size).length = 2 := BigEndian.length_toBytes 2 size
  have hthree := take_overwrite b [0x17, 3, 3] start (by simp; omega)
  have hlen : (overwrite b start [0x17, 3, 3]).length = b.length :=
    length_overwrite (by simp; omega)
  have hfive := take_overwrite (overwrite b start [0x17, 3, 3]) (BigEndian.toBytes 2 size)
    (start + 3) (by rw [hlen, htwo]; omega)
  rw [htwo] at hfive
  rw [show start + 5 = start + 3 + 2 by omega, hfive]
  rw [show ([0x17, 3, 3] : Bytes).length = 3 by rfl] at hthree
  rw [hthree, List.append_assoc]
  rfl

theorem length_header (b : Bytes) (start size : Nat) (h : start + 5 ≤ b.length) :
    (overwrite (overwrite b start [0x17, 3, 3]) (start + 3) (BigEndian.toBytes 2 size)).length =
      b.length := by
  have htwo : (BigEndian.toBytes 2 size).length = 2 := BigEndian.length_toBytes 2 size
  have hlen : (overwrite b start [0x17, 3, 3]).length = b.length :=
    length_overwrite (by simp; omega)
  rw [length_overwrite (by rw [hlen, htwo]; omega), hlen]

/-- Where nothing is left of a record, the next is announced. -/
theorem Writes.startRecord (h : Writes s accepted) (hleft : s.txLeft = 0) (hbytes : bytes ≠ []) :
    ∃ whole r, Writing (s.startRecord bytes) accepted whole r := by
  have hpos : 0 < bytes.length := List.length_pos_iff.mpr hbytes
  have hsize : 1 ≤ min bytes.length tlsRecordMax ∧ min bytes.length tlsRecordMax ≤ tlsRecordMax :=
    ⟨by unfold tlsRecordMax; omega, Nat.min_le_right _ _⟩
  obtain ⟨size, hsize'⟩ : ∃ size, size = min bytes.length tlsRecordMax := ⟨_, rfl⟩
  rw [← hsize'] at hsize
  cases h with
  | fresh first left capacity written accepted_eq =>
    have hccs : (overwrite s.txHeader 0 tlsCcs).length = 11 := by
      rw [length_overwrite (by rw [capacity]; decide), capacity]
    have hsix : (overwrite s.txHeader 0 tlsCcs).take 6 = tlsCcs :=
      take_overwrite s.txHeader tlsCcs 0 (by rw [capacity]; decide)
    have hheader := take_header _ 6 size (by rw [hccs])
    have hlength := length_header _ 6 size (by rw [hccs])
    rw [hsix] at hheader
    refine ⟨[], ⟨size, []⟩, ?_, nofun, ?_, rfl, ?_, ?_, fun _ => rfl, by simp [accepted_eq], ?_⟩
    · intro r' hr'
      obtain rfl := List.mem_singleton.mp hr'
      exact hsize
    · simp [FakeTlsStream.startRecord, hsize']
    · simp only [FakeTlsStream.startRecord, first, ↓reduceIte, ← hsize']
      rw [hlength, hccs]
    · simp [FakeTlsStream.startRecord, first]
    · simp only [unsent, FakeTlsStream.startRecord, first, written, ↓reduceIte, ← hsize']
      rw [List.drop_zero, List.nil_append, Nat.sub_zero, hheader]
      simp [Record.bytes]
  | writing whole r h =>
    have hbody : r.body.length = r.announced := by
      have := h.left
      omega
    have hat : ¬s.txAt < s.txLen := by
      intro hat
      have hnil := h.unsent_first hat
      have hone := (h.sized r (by simp)).1
      simp [hnil] at hbody
      omega
    have hwritten := h.written_eq
    rw [h.unsent_eq_nil hat, List.append_nil] at hwritten
    have hheader := take_header s.txHeader 0 size (by rw [h.capacity]; decide)
    have hlength := length_header s.txHeader 0 size (by rw [h.capacity]; decide)
    refine ⟨whole ++ [r], ⟨size, []⟩, ?_, ?_, ?_, rfl, ?_, ?_, fun _ => rfl, ?_, ?_⟩
    · intro r' hr'
      rcases List.mem_append.mp hr' with hr' | hr'
      · exact h.sized r' hr'
      · obtain rfl := List.mem_singleton.mp hr'
        exact hsize
    · intro r' hr'
      rcases List.mem_append.mp hr' with hr' | hr'
      · exact h.whole_eq r' hr'
      · obtain rfl := List.mem_singleton.mp hr'
        exact hbody
    · simp [FakeTlsStream.startRecord, hsize']
    · simp only [FakeTlsStream.startRecord, h.first, Bool.false_eq_true, ↓reduceIte, ← hsize']
      rw [hlength, h.capacity]
    · simp [FakeTlsStream.startRecord, h.first]
    · rw [List.flatMap_append, h.accepted_eq]
      simp
    · simp only [unsent, FakeTlsStream.startRecord, h.first, Bool.false_eq_true, ↓reduceIte,
        ← hsize']
      rw [List.drop_zero, Nat.sub_zero, hheader, hwritten]
      simp [Record.bytes]

/-- A round that writes some of the header leaves the rest of it. -/
theorem Writing.advance (h : Writing s accepted whole r) {n : Nat} (hn : n ≤ s.unsent.length)
    (hat : s.txAt < s.txLen) : Writing { s with
      writes := s.writes + 1
      written := s.written ++ s.unsent.take n
      txAt := s.txAt + n } accepted whole r := by
  have hlen := h.length_unsent
  have hheader := h.header
  have hunsent : unsent { s with
      writes := s.writes + 1
      written := s.written ++ s.unsent.take n
      txAt := s.txAt + n } = s.unsent.drop n := by
    simp only [unsent, List.drop_take, List.drop_drop]
    congr 1
    omega
  refine ⟨h.sized, h.whole_eq, h.left, h.first, h.capacity, ⟨by simp only; omega, hheader.2⟩,
    fun _ => h.unsent_first hat, h.accepted_eq, ?_⟩
  rw [hunsent, List.append_assoc, List.take_append_drop]
  exact h.written_eq

theorem Writing.polled (h : Writing s accepted whole r) :
    Writing { s with writes := s.writes + 1 } accepted whole r :=
  ⟨h.sized, h.whole_eq, h.left, h.first, h.capacity, h.header, h.unsent_first, h.accepted_eq,
    h.written_eq⟩

/-- What is accepted of the bytes given to a poll. -/
def acceptedOf (bytes : Bytes) : Poll Nat → Bytes
  | .ready (.ok n) => bytes.take n
  | _ => []

/-- The header is written before anything is accepted. -/
theorem Writing.writeHeader (sink : Sink) (bytes : Bytes) (fuel : Nat) : ∀ {s : FakeTlsStream}, Writing s accepted whole r →
    s.txLen - s.txAt ≤ fuel →
    Writing (s.writeHeader sink fuel).2 accepted whole r ∧
      match (s.writeHeader sink fuel).1 with
      | some result => acceptedOf bytes result = []
      | none => ¬(s.writeHeader sink fuel).2.txAt < (s.writeHeader sink fuel).2.txLen := by
  induction fuel with
  | zero =>
    intro s h hfuel
    exact ⟨h, by simp only [FakeTlsStream.writeHeader]; omega⟩
  | succ fuel ih =>
    intro s h hfuel
    unfold FakeTlsStream.writeHeader
    by_cases hat : s.txAt < s.txLen
    · rw [if_pos hat]
      split
      next => exact ⟨h.polled, rfl⟩
      next => exact ⟨h.polled, rfl⟩
      next => exact ⟨h.polled, rfl⟩
      next n hanswer =>
        exact ih (h.advance (sink.bounded hanswer) hat) (by simp only; omega)
    · rw [if_neg hat]
      exact ⟨h, hat⟩

/-- What is accepted of the bytes is what the body of the record gets. -/
theorem Writing.writeBody (sink : Sink) (bytes : Bytes) (h : Writing s accepted whole r) (hat : ¬s.txAt < s.txLen) :
    ∃ r', Writing (s.writeBody sink bytes).2
      (accepted ++ acceptedOf bytes (s.writeBody sink bytes).1) whole r' := by
  unfold FakeTlsStream.writeBody
  simp only
  split
  next => exact ⟨r, by simpa [acceptedOf] using h.polled⟩
  next => exact ⟨r, by simpa [acceptedOf] using h.polled⟩
  next => exact ⟨r, by simpa [acceptedOf] using h.polled⟩
  next n hanswer =>
    have hn := sink.bounded hanswer
    rw [List.length_take] at hn
    have hoffered : (bytes.take (min bytes.length s.txLeft)).take (n + 1) = bytes.take (n + 1) := by
      rw [List.take_take]
      congr 1
      omega
    have hlen : (bytes.take (n + 1)).length = n + 1 := by
      rw [List.length_take]
      omega
    have hleft := h.left
    have hunsent := h.unsent_eq_nil hat
    have hwritten := h.written_eq
    rw [hunsent, List.append_nil] at hwritten
    refine ⟨⟨r.announced, r.body ++ bytes.take (n + 1)⟩, ?_, h.whole_eq, ?_, h.first, h.capacity,
      h.header, fun h' => absurd h' hat, ?_, ?_⟩
    · intro r' hr'
      rcases List.mem_append.mp hr' with hr' | hr'
      · exact h.sized r' (List.mem_append_left _ hr')
      · obtain rfl := List.mem_singleton.mp hr'
        exact h.sized r (by simp)
    · simp only [List.length_append, hlen]
      omega
    · rw [acceptedOf, ← h.accepted_eq]
      simp
    · simp only [hoffered, hwritten]
      change _ ++ s.unsent = _
      rw [hunsent]
      simp [Record.bytes]

/-- One poll keeps what has been written in step with what has been accepted. -/
theorem Writes.pollWrite (h : Writes s accepted) (sink : Sink) (bytes : Bytes) :
    Writes (s.pollWrite sink bytes).2
      (accepted ++ acceptedOf bytes (s.pollWrite sink bytes).1) := by
  unfold FakeTlsStream.pollWrite
  by_cases hbytes : bytes = []
  · rw [if_pos hbytes]
    simpa [acceptedOf] using h
  rw [if_neg hbytes]
  simp only
  obtain ⟨whole, r, hw⟩ : ∃ whole r,
      Writing (if s.txLeft = 0 then s.startRecord bytes else s) accepted whole r := by
    split
    next hleft => exact h.startRecord hleft hbytes
    next hleft =>
      cases h with
      | fresh _ left => exact absurd left hleft
      | writing whole r h => exact ⟨whole, r, h⟩
  obtain ⟨hwrite, hresult⟩ := hw.writeHeader sink bytes _ (Nat.sub_le _ _)
  split
  next result s' heq =>
    rw [heq] at hwrite hresult
    simp only at hwrite hresult
    rw [hresult, List.append_nil]
    exact .writing whole r hwrite
  next s' heq =>
    rw [heq] at hwrite hresult
    obtain ⟨r', hr'⟩ := hwrite.writeBody sink bytes hresult
    exact .writing whole r' hr'

theorem Writes.new : Writes new [] := .fresh rfl rfl (by simp [FakeTlsStream.new]) rfl rfl

end FakeTlsStream

end Grammers
