import Grammers.FakeTls

namespace Grammers

namespace FakeTlsStream

/-- What a stream ends with that holds some whole records. -/
inductive Tail where
  | boundary
  | header (start : Bytes)
  | body (announced : Nat) (part : Bytes)
  | malformed (bad : Bytes)
  deriving DecidableEq

namespace Tail

def bytes : Tail → Bytes
  | .boundary => []
  | .header start => start
  | .body announced part => applicationHeader announced ++ part
  | .malformed bad => bad

def delivered : Tail → Bytes
  | .body _ part => part
  | _ => []

def isMalformed : Tail → Bool
  | .malformed _ => true
  | _ => false

/-- A part of a header, a part of a body, or a header that announces no record. -/
def Proper : Tail → Prop
  | .boundary => True
  | .header start => 0 < start.length ∧ start.length < 5
  | .body announced part => announced ≤ tlsIncomingMax ∧ part.length < announced
  | .malformed bad => bad.length = 5 ∧ validHeader bad = false

end Tail

/-- Whole records on the wire. -/
def records (bodies : List Bytes) : Bytes :=
  bodies.flatMap fun body => applicationHeader body.length ++ body

/-- What has been taken of a stream, and what has been delivered of it: the bodies of its records,
the last as far as it has come. -/
structure Incoming (taken delivered : Bytes) (bodies : List Bytes) (tail : Tail) : Prop where
  sized : ∀ body ∈ bodies, 1 ≤ body.length ∧ body.length ≤ tlsIncomingMax
  proper : tail.Proper
  taken_eq : taken = records bodies ++ tail.bytes
  delivered_eq : delivered = bodies.flatten ++ tail.delivered

/-- How the counters of a stream say where it is. -/
def At (s : FakeTlsStream) : Tail → Prop
  | .boundary => s.rxLeft = 0 ∧ s.rxAt = 0
  | .header start => s.rxLeft = 0 ∧ s.rxAt = start.length ∧ s.rxHeader.take s.rxAt = start
  | .body announced part => s.rxLeft + part.length = announced ∧ s.rxAt = 0
  | .malformed bad => s.rxLeft = 0 ∧ s.rxAt = 5 ∧ s.rxHeader = bad

structure Reads (source : Source) (s : FakeTlsStream) (delivered : Bytes) (bodies : List Bytes)
    (tail : Tail) : Prop where
  incoming : Incoming (source.stream.take s.taken) delivered bodies tail
  taken_le : s.taken ≤ source.stream.length
  header : s.rxHeader.length = 5
  position : s.At tail

/-- A state between records, with a part of a header or all of it. -/
structure Heading (source : Source) (s : FakeTlsStream) (bodies : List Bytes) (start : Bytes) :
    Prop where
  sized : ∀ body ∈ bodies, 1 ≤ body.length ∧ body.length ≤ tlsIncomingMax
  taken_eq : source.stream.take s.taken = records bodies ++ start
  taken_le : s.taken ≤ source.stream.length
  header : s.rxHeader.length = 5
  left : s.rxLeft = 0
  position : s.rxAt = start.length
  start_le : start.length ≤ 5
  start_eq : s.rxHeader.take start.length = start

variable {source : Source} {s s' : FakeTlsStream} {delivered start part : Bytes}
  {bodies : List Bytes} {tail : Tail} {capacity announced : Nat}

theorem Reads.heading (h : Reads source s delivered bodies tail) (hleft : s.rxLeft = 0) :
    Heading source s bodies tail.bytes ∧ delivered = bodies.flatten := by
  obtain ⟨⟨hsized, hproper, htaken, hdelivered⟩, hle, hheader, hat⟩ := h
  cases tail with
  | boundary =>
    exact ⟨⟨hsized, htaken, hle, hheader, hleft, hat.2, Nat.zero_le 5, rfl⟩,
      by simpa [Tail.delivered] using hdelivered⟩
  | header start =>
    refine ⟨⟨hsized, htaken, hle, hheader, hleft, hat.2.1, hproper.2.le, ?_⟩,
      by simpa [Tail.delivered] using hdelivered⟩
    rw [show (Tail.header start).bytes.length = s.rxAt from hat.2.1.symm]
    exact hat.2.2
  | body announced part =>
    have hlt := hproper.2
    have hsum := hat.1
    omega
  | malformed bad =>
    have hfive : (Tail.malformed bad).bytes.length = 5 := hproper.1
    refine ⟨⟨hsized, htaken, hle, hheader, hleft, by rw [hat.2.1, hfive], hfive.le, ?_⟩,
      by simpa [Tail.delivered] using hdelivered⟩
    rw [List.take_of_length_le (by rw [hheader, hfive])]
    exact hat.2.2

/-- Where the stream is with part of a header. -/
def tailOf (start : Bytes) : Tail := if start = [] then .boundary else .header start

theorem Heading.reads (h : Heading source s bodies start) (hshort : start.length < 5) :
    Reads source s bodies.flatten bodies (tailOf start) := by
  unfold tailOf
  split
  next hnil =>
    subst hnil
    exact ⟨⟨h.sized, trivial, h.taken_eq, by simp [Tail.delivered]⟩, h.taken_le, h.header,
      h.left, h.position⟩
  next hne =>
    refine ⟨⟨h.sized, ⟨List.length_pos_iff.mpr hne, hshort⟩, h.taken_eq, by simp [Tail.delivered]⟩,
      h.taken_le, h.header, h.left, h.position, ?_⟩
    rw [h.position]
    exact h.start_eq

theorem length_piece (s : FakeTlsStream) (source : Source) (count : Nat) :
    (s.piece source count).length = min count (source.stream.length - s.taken) := by
  simp [piece]

/-- The stream goes on with the piece that is read. -/
theorem take_taken (s : FakeTlsStream) (source : Source) (count : Nat) :
    source.stream.take (s.taken + (s.piece source count).length) =
      source.stream.take s.taken ++ s.piece source count := by
  rw [List.take_add, length_piece, piece]
  congr 1
  rw [← List.length_drop, ← List.take_eq_take_min]

/-- A round that reads some of the header adds it to what is there. -/
theorem Heading.advance (h : Heading source s bodies start) {count : Nat}
    (hcount : count ≤ 5 - s.rxAt) : Heading source { s with
      reads := s.reads + 1
      taken := s.taken + (s.piece source count).length
      rxHeader := overwrite s.rxHeader s.rxAt (s.piece source count)
      rxAt := s.rxAt + (s.piece source count).length } bodies (start ++ s.piece source count) := by
  have hle := h.taken_le
  have hfive := h.start_le
  have hposition := h.position
  have hlen := length_piece s source count
  have hheader := h.header
  refine ⟨h.sized, ?_, by simp only; omega, ?_, h.left, by simp [hposition],
    by rw [List.length_append]; omega, ?_⟩
  · rw [take_taken, h.taken_eq, List.append_assoc]
  · simp only
    rw [length_overwrite (by omega), hheader]
  · simp only
    rw [List.length_append, ← hposition, overwrite, ← List.append_assoc,
      List.take_left' (by simp; omega), hposition, h.start_eq]

theorem Heading.polled (h : Heading source s bodies start) :
    Heading source { s with reads := s.reads + 1 } bodies start :=
  ⟨h.sized, h.taken_eq, h.taken_le, h.header, h.left, h.position, h.start_le, h.start_eq⟩

/-- A stream below that always gives something until it ends. -/
def Source.Live (source : Source) : Prop :=
  ∀ poll capacity, 0 < capacity → ∃ n, source.answer poll capacity = .ready (n + 1)

/-- A poll that the stream below did not answer. -/
def Stalled (result : Poll Bytes) : Prop :=
  result = .pending ∨ ∃ e, result = .ready (.error (.inner e))

theorem taken_eq_of_piece_nil (hlive : source.Live) {poll count : Nat} (hcapacity : 0 < capacity)
    (hanswer : source.answer poll capacity = .ready count) (hle : s.taken ≤ source.stream.length)
    (hpiece : s.piece source count = []) : s.taken = source.stream.length := by
  obtain ⟨n, hn⟩ := hlive poll capacity hcapacity
  rw [hanswer] at hn
  cases hn
  have hlen := length_piece s source (n + 1)
  rw [hpiece, List.length_nil] at hlen
  omega

/-- How the reading of a header ends: with all of it, or with less. -/
structure HeaderRead (source : Source) (s : FakeTlsStream) (bodies : List Bytes) (start : Bytes)
    (r : Option (Poll Bytes) × FakeTlsStream) (start' : Bytes) : Prop where
  heading : Heading source r.2 bodies start'
  taken_le : s.taken ≤ r.2.taken
  whole : r.1 = none → start'.length = 5 ∧ (start.length < 5 → s.taken < r.2.taken)
  short : ∀ result, r.1 = some result → start'.length < 5 ∧
    (Stalled result ∧ ¬source.Live ∨
      result = .ready (if start' = [] then .ok [] else .error .headerEndedEarly) ∧
        (source.Live → r.2.taken = source.stream.length))

theorem Heading.readHeader (fuel : Nat) : ∀ {s : FakeTlsStream} {start : Bytes},
    Heading source s bodies start → 5 - s.rxAt ≤ fuel →
    ∃ start', HeaderRead source s bodies start (s.readHeader source fuel) start' := by
  induction fuel with
  | zero =>
    intro s start h hfuel
    have hposition := h.position
    have hle := h.start_le
    exact ⟨start, h, Nat.le_refl _, fun _ => ⟨by omega, by omega⟩, nofun⟩
  | succ fuel ih =>
    intro s start h hfuel
    have hposition := h.position
    have hle := h.start_le
    unfold FakeTlsStream.readHeader
    by_cases hat : s.rxAt < 5
    · rw [if_pos hat]
      have hstalled {answer : Answer} (hanswer : source.answer s.reads (5 - s.rxAt) = answer)
          (hnot : ∀ n, answer ≠ .ready n) : ¬source.Live := by
        intro hlive
        obtain ⟨n, hn⟩ := hlive s.reads (5 - s.rxAt) (by omega)
        exact hnot _ (hanswer.symm.trans hn)
      split
      next hanswer =>
        refine ⟨start, h.polled, Nat.le_refl _, nofun, ?_⟩
        rintro _ ⟨⟩
        exact ⟨by omega, Or.inl ⟨Or.inl rfl, hstalled hanswer nofun⟩⟩
      next e hanswer =>
        refine ⟨start, h.polled, Nat.le_refl _, nofun, ?_⟩
        rintro _ ⟨⟩
        exact ⟨by omega, Or.inl ⟨Or.inr ⟨e, rfl⟩, hstalled hanswer nofun⟩⟩
      next count hanswer =>
        simp only
        split
        next hpiece =>
          rw [hpiece]
          refine ⟨start, h.polled, Nat.le_refl _, nofun, ?_⟩
          rintro _ ⟨⟩
          refine ⟨by omega, Or.inr ⟨?_, fun hlive =>
            taken_eq_of_piece_nil hlive (by omega) hanswer h.taken_le hpiece⟩⟩
          have hiff : s.rxAt = 0 ↔ start = [] := by rw [hposition, List.length_eq_zero_iff]
          simp only [hiff]
        next hpiece =>
          have hpos : 0 < (s.piece source count).length := List.length_pos_iff.mpr hpiece
          have hadvance := h.advance (source.bounded hanswer)
          obtain ⟨start', hread⟩ := ih hadvance (by simp only; omega)
          have hmore : s.taken < (FakeTlsStream.readHeader source fuel { s with
              reads := s.reads + 1
              taken := s.taken + (s.piece source count).length
              rxHeader := overwrite s.rxHeader s.rxAt (s.piece source count)
              rxAt := s.rxAt + (s.piece source count).length }).2.taken := by
            have := hread.taken_le
            simp only at this
            omega
          exact ⟨start', hread.heading, hmore.le, fun hnone => ⟨(hread.whole hnone).1, fun _ => hmore⟩,
            hread.short⟩
    · rw [if_neg hat]
      exact ⟨start, h, Nat.le_refl _, fun _ => ⟨by omega, by omega⟩, nofun⟩

/-- What a poll puts into the buffer it is given. -/
def deliveredOf : Poll Bytes → Bytes
  | .ready (.ok bytes) => bytes
  | _ => []

/-- What is reported when the stream below has ended. -/
def ending : Tail → Except TlsError Bytes
  | .boundary => .ok []
  | .header _ => .error .headerEndedEarly
  | .body _ _ => .error .bodyEndedEarly
  | .malformed _ => .error .invalidApplicationRecord

/-- How a poll for some bytes ends. -/
structure ReadOutcome (source : Source) (s : FakeTlsStream) (tail : Tail) (capacity : Nat)
    (r : Poll Bytes × FakeTlsStream) (tail' : Tail) : Prop where
  size : (deliveredOf r.1).length ≤ capacity
  clean : r.1 = .ready (.ok []) → tail' = .boundary
  invalid : r.1 = .ready (.error .invalidApplicationRecord) ↔ tail'.isMalformed = true
  stays : tail.isMalformed = true → r.2 = s ∧ tail' = tail
  taken_le : s.taken ≤ r.2.taken
  live : source.Live → s.taken < source.stream.length → tail.isMalformed = false →
    s.taken < r.2.taken
  ended : source.Live → s.taken = source.stream.length → r.1 = .ready (ending tail) ∧ tail' = tail

theorem Reads.polled (h : Reads source s delivered bodies tail) :
    Reads source { s with reads := s.reads + 1 } (delivered ++ []) bodies tail := by
  rw [List.append_nil]
  exact ⟨h.incoming, h.taken_le, h.header, h.position⟩

/-- A stall says nothing of a stream that always gives something. -/
theorem ReadOutcome.of_stalled {result : Poll Bytes} {r : FakeTlsStream}
    (hstalled : Stalled result) (hlive : ¬source.Live) (hle : s.taken ≤ r.taken)
    {tail' : Tail} (htail : tail.isMalformed = false) (htail' : tail'.isMalformed = false) :
    ReadOutcome source s tail capacity (result, r) tail' := by
  refine ⟨?_, ?_, ?_, by simp [htail], hle, fun h => absurd h hlive, fun h => absurd h hlive⟩ <;>
    rcases hstalled with rfl | ⟨e, rfl⟩ <;> simp [deliveredOf, htail']

/-- The body goes on with what is read of it, to its end and no further. -/
theorem Reads.advance (h : Reads source s delivered bodies (.body announced part)) {count : Nat}
    (hcount : count ≤ s.rxLeft) :
    ∃ bodies' tail', tail'.isMalformed = false ∧ Reads source { s with
      reads := s.reads + 1
      taken := s.taken + (s.piece source count).length
      rxLeft := s.rxLeft - (s.piece source count).length }
        (delivered ++ s.piece source count) bodies' tail' := by
  obtain ⟨⟨hsized, ⟨hmax, hlt⟩, htaken, hdelivered⟩, hle, hheader, hleft, hat⟩ := h
  have hlen := length_piece s source count
  obtain ⟨more, hmore⟩ : ∃ more, more = s.piece source count := ⟨_, rfl⟩
  have htake := take_taken s source count
  rw [← hmore] at htake hlen ⊢
  simp only [Tail.bytes, Tail.delivered] at htaken hdelivered
  by_cases hend : part.length + more.length = announced
  · refine ⟨bodies ++ [part ++ more], .boundary, rfl, ⟨?_, trivial, ?_, ?_⟩, by simp only; omega,
      hheader, by simp only; omega, hat⟩
    · intro body hbody
      rcases List.mem_append.mp hbody with hbody | hbody
      · exact hsized body hbody
      · obtain rfl := List.mem_singleton.mp hbody
        rw [List.length_append]
        omega
    · simp only
      rw [htake, htaken]
      simp [records, Tail.bytes, hend]
    · simp [hdelivered, Tail.delivered]
  · refine ⟨bodies, .body announced (part ++ more), rfl, ⟨hsized, ⟨hmax, ?_⟩, ?_, ?_⟩,
      by simp only; omega, hheader, ?_, hat⟩
    · rw [List.length_append]
      omega
    · simp only
      rw [htake, htaken]
      simp [Tail.bytes]
    · simp [hdelivered, Tail.delivered]
    · simp only [List.length_append]
      omega

theorem Reads.readBody (h : Reads source s delivered bodies (.body announced part))
    (hcapacity : 0 < capacity) : ∃ bodies' tail',
      Reads source (s.readBody source capacity).2
        (delivered ++ deliveredOf (s.readBody source capacity).1) bodies' tail' ∧
      ReadOutcome source s (.body announced part) capacity (s.readBody source capacity) tail' := by
  have hpos : 0 < min capacity s.rxLeft := by
    have hsum := h.position.1
    have hlt := h.incoming.proper.2
    omega
  have hstalled {answer : Answer} (hanswer : source.answer s.reads (min capacity s.rxLeft) = answer)
      (hnot : ∀ n, answer ≠ .ready n) : ¬source.Live := by
    intro hlive
    obtain ⟨n, hn⟩ := hlive s.reads _ hpos
    exact hnot _ (hanswer.symm.trans hn)
  unfold FakeTlsStream.readBody
  split
  next hanswer =>
    refine ⟨bodies, _, h.polled, .of_stalled (Or.inl rfl) (hstalled hanswer nofun) ?_ rfl rfl⟩
    exact Nat.le_refl s.taken
  next e hanswer =>
    refine ⟨bodies, _, h.polled, .of_stalled (Or.inr ⟨e, rfl⟩) (hstalled hanswer nofun) ?_ rfl rfl⟩
    exact Nat.le_refl s.taken
  next count hanswer =>
    simp only
    split
    next hpiece =>
      rw [hpiece]
      refine ⟨bodies, _, h.polled, ?_⟩
      have hended (hlive : source.Live) :=
        taken_eq_of_piece_nil hlive hpos hanswer h.taken_le hpiece
      refine ⟨by simp [deliveredOf], by simp, by simp [Tail.isMalformed], nofun, Nat.le_refl _,
        fun hlive hlt => ?_, fun _ _ => ⟨rfl, rfl⟩⟩
      have := hended hlive
      omega
    next hpiece =>
      have hlength : 0 < (s.piece source count).length := List.length_pos_iff.mpr hpiece
      have hcount := source.bounded hanswer
      have hlen := length_piece s source count
      obtain ⟨bodies', tail', hmalformed, hreads⟩ := h.advance (show count ≤ s.rxLeft by omega)
      refine ⟨bodies', tail', hreads, ?_⟩
      refine ⟨by simp only [deliveredOf]; omega, ?_, by simp [hmalformed], nofun,
        by simp only; omega, fun _ _ _ => by simp only; omega, fun _ hend => by omega⟩
      intro hnil
      simp only [Poll.ready.injEq, Except.ok.injEq] at hnil
      exact absurd hnil hpiece

theorem validHeader_iff {header : Bytes} : validHeader header = true ↔
    header.take 3 = [0x17, 3, 3] ∧ 1 ≤ BigEndian.ofBytes (header.drop 3) ∧
      BigEndian.ofBytes (header.drop 3) ≤ tlsIncomingMax := by
  simp [validHeader]

/-- A header that is valid announces a body, of which nothing has been read. -/
theorem Heading.body (h : Heading source s bodies start) (hfive : start.length = 5)
    (hvalid : validHeader s.rxHeader = true) : Reads source
      { s with rxLeft := BigEndian.ofBytes (s.rxHeader.drop 3), rxAt := 0 } bodies.flatten bodies
        (.body (BigEndian.ofBytes (s.rxHeader.drop 3)) []) := by
  obtain ⟨hhead, hone, hmax⟩ := validHeader_iff.mp hvalid
  have hstart : start = s.rxHeader := by
    have heq := h.start_eq
    rw [hfive, List.take_of_length_le h.header.le] at heq
    exact heq.symm
  have htwo : (s.rxHeader.drop 3).length = 2 := by
    rw [List.length_drop, h.header]
  have hheader : applicationHeader (BigEndian.ofBytes (s.rxHeader.drop 3)) = s.rxHeader := by
    have hbytes := BigEndian.toBytes_ofBytes (s.rxHeader.drop 3)
    rw [htwo] at hbytes
    rw [applicationHeader, hbytes, ← hhead, List.take_append_drop]
  refine ⟨⟨h.sized, ⟨hmax, hone⟩, ?_, by simp [Tail.delivered]⟩, h.taken_le, h.header, rfl, rfl⟩
  simp only [Tail.bytes, hheader, List.append_nil]
  rw [h.taken_eq, hstart]

theorem Heading.malformed (h : Heading source s bodies start) (hfive : start.length = 5)
    (hvalid : validHeader s.rxHeader = false) :
    Reads source s bodies.flatten bodies (.malformed s.rxHeader) := by
  have hstart : start = s.rxHeader := by
    have heq := h.start_eq
    rw [hfive, List.take_of_length_le h.header.le] at heq
    exact heq.symm
  have htaken := h.taken_eq
  rw [hstart] at htaken
  exact ⟨⟨h.sized, ⟨h.header, hvalid⟩, htaken, by simp [Tail.delivered]⟩, h.taken_le, h.header,
    h.left, by rw [h.position, hfive], rfl⟩

theorem Reads.bytes_lt (h : Reads source s delivered bodies tail) (hleft : s.rxLeft = 0)
    (hbad : tail.isMalformed = false) : tail.bytes.length < 5 ∧ tailOf tail.bytes = tail ∧
      ending tail = if tail.bytes = [] then .ok [] else .error .headerEndedEarly := by
  have hproper := h.incoming.proper
  have hposition := h.position
  cases tail with
  | boundary => exact ⟨Nat.zero_lt_succ 4, rfl, rfl⟩
  | header start =>
    have hne : start ≠ [] := List.length_pos_iff.mp hproper.1
    exact ⟨hproper.2, by simp [tailOf, Tail.bytes, hne], by simp [ending, Tail.bytes, hne]⟩
  | body announced part =>
    have hlt := hproper.2
    have hsum := hposition.1
    omega
  | malformed bad => simp [Tail.isMalformed] at hbad

theorem isMalformed_tailOf (start : Bytes) : (tailOf start).isMalformed = false := by
  unfold tailOf
  split <;> rfl

/-- A header that is no header of a record is read again by every poll. -/
theorem Reads.pollRead_malformed {bad : Bytes}
    (h : Reads source s delivered bodies (.malformed bad)) (hcapacity : 0 < capacity) :
    s.pollRead source capacity = (.ready (.error .invalidApplicationRecord), s) := by
  obtain ⟨hleft, hat, hbad⟩ := h.position
  have hread : s.readHeader source 5 = (none, s) := by
    unfold FakeTlsStream.readHeader
    rw [if_neg (by omega)]
  have hvalid : validHeader s.rxHeader = false := by
    rw [hbad]
    exact h.incoming.proper.2
  unfold FakeTlsStream.pollRead
  rw [if_neg (by omega), if_pos hleft, hread]
  simp [hvalid]

/-- Between records, a poll reads the header and then some of the body. -/
theorem Reads.pollRead_heading (h : Reads source s delivered bodies tail) (hleft : s.rxLeft = 0)
    (hbad : tail.isMalformed = false) (hcapacity : 0 < capacity) : ∃ bodies' tail',
      Reads source (s.pollRead source capacity).2
        (delivered ++ deliveredOf (s.pollRead source capacity).1) bodies' tail' ∧
      ReadOutcome source s tail capacity (s.pollRead source capacity) tail' := by
  obtain ⟨hheading, rfl⟩ := h.heading hleft
  obtain ⟨hshort, htail, hending⟩ := h.bytes_lt hleft hbad
  obtain ⟨start', hread⟩ := hheading.readHeader 5 (Nat.sub_le _ _)
  unfold FakeTlsStream.pollRead
  rw [if_neg (by omega), if_pos hleft]
  rcases heq : s.readHeader source 5 with ⟨_ | result, s'⟩
  · rw [heq] at hread
    obtain ⟨hfive, hmore⟩ := hread.whole rfl
    have hlt := hmore hshort
    have hle := hread.heading.taken_le
    simp only at hlt hle ⊢
    by_cases hvalid : validHeader s'.rxHeader = true
    · rw [if_pos hvalid]
      obtain ⟨bodies', tail', hreads, hout⟩ :=
        (hread.heading.body hfive hvalid).readBody hcapacity
      have hafter := hout.taken_le
      simp only at hafter
      exact ⟨bodies', tail', hreads, hout.size, hout.clean, hout.invalid, by simp [hbad],
        by omega, fun _ _ _ => by omega, fun _ hend => by omega⟩
    · rw [if_neg hvalid]
      have hmalformed := hread.heading.malformed hfive (by simpa using hvalid)
      refine ⟨bodies, _, by simpa [deliveredOf] using hmalformed, ?_⟩
      exact ⟨by simp [deliveredOf], by simp, by simp [Tail.isMalformed], by simp [hbad],
        hlt.le, fun _ _ _ => hlt, fun _ hend => by omega⟩
  · rw [heq] at hread
    obtain ⟨hfewer, hresult⟩ := hread.short result rfl
    have hreads := hread.heading.reads hfewer
    have hmalformed := isMalformed_tailOf start'
    have hle := hread.taken_le
    simp only at hreads hle ⊢
    rcases hresult with ⟨hstalled, hlive⟩ | ⟨rfl, hended⟩
    · have hnone : deliveredOf result = [] := by
        rcases hstalled with rfl | ⟨e, rfl⟩ <;> rfl
      refine ⟨bodies, tailOf start', by simpa [hnone] using hreads, ?_⟩
      exact .of_stalled hstalled hlive hle hbad hmalformed
    · have hnone : deliveredOf (.ready (if start' = [] then .ok [] else
          .error .headerEndedEarly)) = [] := by
        split <;> rfl
      refine ⟨bodies, tailOf start', by simpa [hnone] using hreads, by simp [hnone], ?_, ?_,
        by simp [hbad], hle, fun hlive hlt _ => ?_, fun hlive hend => ?_⟩
      · intro hok
        have hnil : start' = [] := by
          by_contra hne
          simp [hne] at hok
        simp [tailOf, hnil]
      · rw [hmalformed]
        constructor
        · intro hinvalid
          split at hinvalid <;> simp at hinvalid
        · simp
      · have hall : s'.taken = source.stream.length := hended hlive
        show s.taken < s'.taken
        omega
      · have hsame : s'.taken = s.taken := (hended hlive).trans hend.symm
        have hstart : start' = tail.bytes := by
          have htaken := hread.heading.taken_eq
          simp only [hsame] at htaken
          rw [hheading.taken_eq] at htaken
          exact (List.append_cancel_left htaken).symm
        rw [hstart, htail, hending]
        exact ⟨rfl, rfl⟩

/-- One poll delivers the next bytes of the bodies, and ends as the stream does. -/
theorem Reads.pollRead (h : Reads source s delivered bodies tail) (hcapacity : 0 < capacity) :
    ∃ bodies' tail', Reads source (s.pollRead source capacity).2
        (delivered ++ deliveredOf (s.pollRead source capacity).1) bodies' tail' ∧
      ReadOutcome source s tail capacity (s.pollRead source capacity) tail' := by
  by_cases hleft : s.rxLeft = 0
  · by_cases hbad : tail.isMalformed = true
    · cases tail with
      | malformed bad =>
        rw [h.pollRead_malformed hcapacity]
        refine ⟨bodies, .malformed bad, by simpa [deliveredOf] using h, ?_⟩
        exact ⟨by simp [deliveredOf], by simp, by simp [Tail.isMalformed], fun _ => ⟨rfl, rfl⟩,
          Nat.le_refl _, by simp [Tail.isMalformed], fun _ _ => ⟨rfl, rfl⟩⟩
      | _ => simp [Tail.isMalformed] at hbad
    · exact h.pollRead_heading hleft (by simpa using hbad) hcapacity
  · obtain ⟨announced, part, rfl⟩ : ∃ announced part, tail = .body announced part := by
      have hposition := h.position
      cases tail with
      | body announced part => exact ⟨announced, part, rfl⟩
      | _ => exact absurd hposition.1 hleft
    unfold FakeTlsStream.pollRead
    rw [if_neg (by omega), if_neg hleft]
    exact h.readBody hcapacity

theorem Reads.new (source : Source) : Reads source new [] [] .boundary :=
  ⟨⟨nofun, trivial, rfl, rfl⟩, Nat.zero_le _, rfl, rfl, rfl⟩

end FakeTlsStream

end Grammers
