import Grammers.FakeTlsHello
import Grammers.FakeTlsRead
import Grammers.FakeTlsWrite

namespace Grammers

namespace FakeTlsStream

inductive PipeOp where
  | write (bytes : Bytes)
  | read (capacity : Nat)

/-- A stream with the bytes that its writes have accepted and its reads have delivered. -/
structure Pipe where
  stream : FakeTlsStream
  accepted : Bytes
  delivered : Bytes

namespace Pipe

variable (sink : Sink) (source : Source)

def turn (p : Pipe) : PipeOp → Pipe
  | .write bytes =>
    let (result, s) := p.stream.pollWrite sink bytes
    { p with stream := s, accepted := p.accepted ++ acceptedOf bytes result }
  | .read capacity =>
    let (result, s) := p.stream.pollRead source capacity
    { p with stream := s, delivered := p.delivered ++ deliveredOf result }

def run (p : Pipe) (ops : List PipeOp) : Pipe := ops.foldl (turn sink source) p

def start : Pipe := ⟨new, [], []⟩

end Pipe

/-- The reading side is left alone. -/
structure SameRx (s s' : FakeTlsStream) : Prop where
  rxHeader : s'.rxHeader = s.rxHeader
  rxAt : s'.rxAt = s.rxAt
  rxLeft : s'.rxLeft = s.rxLeft
  taken : s'.taken = s.taken

/-- The writing side is left alone. -/
structure SameTx (s s' : FakeTlsStream) : Prop where
  txHeader : s'.txHeader = s.txHeader
  txAt : s'.txAt = s.txAt
  txLen : s'.txLen = s.txLen
  txLeft : s'.txLeft = s.txLeft
  first : s'.first = s.first
  written : s'.written = s.written

variable {sink : Sink} {source : Source} {s s' : FakeTlsStream} {accepted delivered : Bytes}
  {bodies : List Bytes} {tail : Tail}

theorem SameRx.trans {s'' : FakeTlsStream} (h : SameRx s s') (h' : SameRx s' s'') :
    SameRx s s'' :=
  ⟨h'.rxHeader.trans h.rxHeader, h'.rxAt.trans h.rxAt, h'.rxLeft.trans h.rxLeft,
    h'.taken.trans h.taken⟩

theorem SameTx.trans {s'' : FakeTlsStream} (h : SameTx s s') (h' : SameTx s' s'') :
    SameTx s s'' :=
  ⟨h'.txHeader.trans h.txHeader, h'.txAt.trans h.txAt, h'.txLen.trans h.txLen,
    h'.txLeft.trans h.txLeft, h'.first.trans h.first, h'.written.trans h.written⟩

theorem SameRx.reads (h : SameRx s s') (hr : Reads source s delivered bodies tail) :
    Reads source s' delivered bodies tail := by
  obtain ⟨hincoming, hle, hheader, hposition⟩ := hr
  refine ⟨by rw [h.taken]; exact hincoming, by rw [h.taken]; exact hle,
    by rw [h.rxHeader]; exact hheader, ?_⟩
  cases tail <;> simp only [At, h.rxHeader, h.rxAt, h.rxLeft] at hposition ⊢ <;> exact hposition

theorem SameTx.writing (h : SameTx s s') {whole : List Record} {r : Record}
    (hw : Writing s accepted whole r) : Writing s' accepted whole r := by
  have hunsent : s'.unsent = s.unsent := by simp only [unsent, h.txHeader, h.txAt, h.txLen]
  exact ⟨hw.sized, hw.whole_eq, by rw [h.txLeft]; exact hw.left, by rw [h.first]; exact hw.first,
    by rw [h.txHeader]; exact hw.capacity, by rw [h.txAt, h.txLen]; exact hw.header,
    by rw [h.txAt, h.txLen]; exact hw.unsent_first, hw.accepted_eq,
    by rw [h.written, hunsent]; exact hw.written_eq⟩

theorem SameTx.writes (h : SameTx s s') (hw : Writes s accepted) : Writes s' accepted := by
  cases hw with
  | fresh first left capacity written accepted_eq =>
    exact .fresh (h.first.trans first) (h.txLeft.trans left) (by rw [h.txHeader]; exact capacity)
      (h.written.trans written) accepted_eq
  | writing whole r hw => exact .writing whole r (h.writing hw)

theorem sameRx_writeHeader (sink : Sink) (fuel : Nat) :
    ∀ s : FakeTlsStream, SameRx s (s.writeHeader sink fuel).2 := by
  induction fuel with
  | zero => exact fun s => ⟨rfl, rfl, rfl, rfl⟩
  | succ fuel ih =>
    intro s
    unfold FakeTlsStream.writeHeader
    split
    · split
      · exact ⟨rfl, rfl, rfl, rfl⟩
      · exact ⟨rfl, rfl, rfl, rfl⟩
      · exact ⟨rfl, rfl, rfl, rfl⟩
      · refine SameRx.trans ?_ (ih _)
        exact ⟨rfl, rfl, rfl, rfl⟩
    · exact ⟨rfl, rfl, rfl, rfl⟩

theorem sameRx_writeBody (sink : Sink) (s : FakeTlsStream) (bytes : Bytes) :
    SameRx s (s.writeBody sink bytes).2 := by
  unfold FakeTlsStream.writeBody
  simp only
  split <;> exact ⟨rfl, rfl, rfl, rfl⟩

theorem sameRx_pollWrite (sink : Sink) (s : FakeTlsStream) (bytes : Bytes) :
    SameRx s (s.pollWrite sink bytes).2 := by
  unfold FakeTlsStream.pollWrite
  split
  · exact ⟨rfl, rfl, rfl, rfl⟩
  · simp only
    obtain ⟨s₁, hs₁⟩ : ∃ s₁, s₁ = if s.txLeft = 0 then s.startRecord bytes else s := ⟨_, rfl⟩
    have hstart : SameRx s s₁ := by
      rw [hs₁]
      split <;> exact ⟨rfl, rfl, rfl, rfl⟩
    have hheader := sameRx_writeHeader sink s₁.txLen s₁
    rw [← hs₁]
    split
    next result s' heq =>
      rw [heq] at hheader
      exact hstart.trans hheader
    next s' heq =>
      rw [heq] at hheader
      exact (hstart.trans hheader).trans (sameRx_writeBody sink s' bytes)

theorem sameTx_readHeader (source : Source) (fuel : Nat) :
    ∀ s : FakeTlsStream, SameTx s (s.readHeader source fuel).2 := by
  induction fuel with
  | zero => exact fun s => ⟨rfl, rfl, rfl, rfl, rfl, rfl⟩
  | succ fuel ih =>
    intro s
    unfold FakeTlsStream.readHeader
    split
    · split
      · exact ⟨rfl, rfl, rfl, rfl, rfl, rfl⟩
      · exact ⟨rfl, rfl, rfl, rfl, rfl, rfl⟩
      · simp only
        split
        · exact ⟨rfl, rfl, rfl, rfl, rfl, rfl⟩
        · refine SameTx.trans ?_ (ih _)
          exact ⟨rfl, rfl, rfl, rfl, rfl, rfl⟩
    · exact ⟨rfl, rfl, rfl, rfl, rfl, rfl⟩

theorem sameTx_readBody (source : Source) (s : FakeTlsStream) (capacity : Nat) :
    SameTx s (s.readBody source capacity).2 := by
  unfold FakeTlsStream.readBody
  split
  · exact ⟨rfl, rfl, rfl, rfl, rfl, rfl⟩
  · exact ⟨rfl, rfl, rfl, rfl, rfl, rfl⟩
  · simp only
    split <;> exact ⟨rfl, rfl, rfl, rfl, rfl, rfl⟩

theorem sameTx_pollRead (source : Source) (s : FakeTlsStream) (capacity : Nat) :
    SameTx s (s.pollRead source capacity).2 := by
  have hheader := sameTx_readHeader source 5 s
  unfold FakeTlsStream.pollRead
  split
  · exact ⟨rfl, rfl, rfl, rfl, rfl, rfl⟩
  split
  · split
    next result s' heq =>
      rw [heq] at hheader
      exact hheader
    next s' heq =>
      rw [heq] at hheader
      split
      · refine hheader.trans (SameTx.trans ?_ (sameTx_readBody source _ capacity))
        exact ⟨rfl, rfl, rfl, rfl, rfl, rfl⟩
      · exact hheader
  · exact sameTx_readBody source s capacity

/-- What holds of a stream whichever way it is used. -/
structure Kept (source : Source) (p : Pipe) : Prop where
  writes : Writes p.stream p.accepted
  reads : ∃ bodies tail, Reads source p.stream p.delivered bodies tail

theorem Kept.turn {p : Pipe} (h : Kept source p) (op : PipeOp) :
    Kept source (p.turn sink source op) := by
  obtain ⟨bodies, tail, hreads⟩ := h.reads
  cases op with
  | write bytes =>
    exact ⟨h.writes.pollWrite sink bytes, bodies, tail,
      (sameRx_pollWrite sink p.stream bytes).reads hreads⟩
  | read capacity =>
    refine ⟨(sameTx_pollRead source p.stream capacity).writes h.writes, ?_⟩
    rcases Nat.eq_zero_or_pos capacity with rfl | hcapacity
    · exact ⟨bodies, tail, by simpa [Pipe.turn, FakeTlsStream.pollRead, deliveredOf] using hreads⟩
    · obtain ⟨bodies', tail', hreads', -⟩ := hreads.pollRead hcapacity
      exact ⟨bodies', tail', hreads'⟩

theorem Kept.run {p : Pipe} (h : Kept source p) (ops : List PipeOp) :
    Kept source (p.run sink source ops) := by
  induction ops generalizing p with
  | nil => exact h
  | cons op ops ih => exact ih (h.turn op)

theorem Kept.start (source : Source) : Kept source .start :=
  ⟨.new, [], .boundary, .new source⟩

/-- How many polls ask for bytes. -/
def asks : List PipeOp → Nat
  | [] => 0
  | .write _ :: ops => asks ops
  | .read capacity :: ops => (if capacity = 0 then 0 else 1) + asks ops

/-- A stream below that always gives something is read to its end, or to a malformed header. -/
theorem Reads.progress (sink : Sink) (hlive : source.Live) (ops : List PipeOp) : ∀ {p : Pipe} {bodies : List Bytes}
    {tail : Tail}, Reads source p.stream p.delivered bodies tail →
    ∃ bodies' tail', Reads source (p.run sink source ops).stream (p.run sink source ops).delivered
        bodies' tail' ∧ (tail.isMalformed = true → tail'.isMalformed = true) ∧
      (tail'.isMalformed = true ∨ (p.run sink source ops).stream.taken = source.stream.length ∨
        p.stream.taken + asks ops ≤ (p.run sink source ops).stream.taken) := by
  induction ops with
  | nil => exact fun h => ⟨_, _, h, fun h => h, Or.inr (Or.inr (Nat.le_refl _))⟩
  | cons op ops ih =>
    intro p bodies tail h
    cases op with
    | write bytes =>
      have hsame := sameRx_pollWrite sink p.stream bytes
      obtain ⟨bodies', tail', hreads, hbad, hprogress⟩ :=
        ih (p := p.turn sink source (.write bytes)) (hsame.reads h)
      have htaken : (p.turn sink source (.write bytes)).stream.taken = p.stream.taken := hsame.taken
      rw [htaken] at hprogress
      exact ⟨bodies', tail', hreads, hbad, hprogress⟩
    | read capacity =>
      rcases Nat.eq_zero_or_pos capacity with rfl | hcapacity
      · have hturn : p.turn sink source (.read 0) = p := by
          simp [Pipe.turn, FakeTlsStream.pollRead, deliveredOf]
        obtain ⟨bodies', tail', hreads, hbad, hprogress⟩ := ih h
        have hrun : p.run sink source (.read 0 :: ops) = p.run sink source ops := by
          rw [Pipe.run, List.foldl_cons, hturn]
          rfl
        have hasks : asks (.read 0 :: ops) = asks ops := Nat.zero_add _
        rw [hrun, hasks]
        exact ⟨bodies', tail', hreads, hbad, hprogress⟩
      · obtain ⟨bodies₁, tail₁, hreads₁, hout⟩ := h.pollRead hcapacity
        obtain ⟨bodies', tail', hreads, hbad, hprogress⟩ :=
          ih (p := p.turn sink source (.read capacity)) hreads₁
        have hasks : asks (.read capacity :: ops) = 1 + asks ops := by
          simp only [asks]
          rw [if_neg (by omega)]
        have htail : tail.isMalformed = true → tail'.isMalformed = true := by
          intro hmalformed
          apply hbad
          rw [(hout.stays hmalformed).2]
          exact hmalformed
        refine ⟨bodies', tail', hreads, htail, ?_⟩
        rw [hasks]
        rcases hprogress with hmalformed | hend | hmore
        · exact Or.inl hmalformed
        · exact Or.inr (Or.inl hend)
        · by_cases hmalformed : tail.isMalformed = true
          · exact Or.inl (htail hmalformed)
          · have hle := hreads.taken_le
            have hbefore : (p.turn sink source (.read capacity)).stream.taken =
              (p.stream.pollRead source capacity).2.taken := rfl
            have hafter : p.run sink source (.read capacity :: ops) =
              (p.turn sink source (.read capacity)).run sink source ops := rfl
            rw [← hafter] at hmore hle
            rcases Nat.lt_or_ge p.stream.taken source.stream.length with hlt | hge
            · have := hout.live hlive hlt (by simpa using hmalformed)
              exact Or.inr (Or.inr (by omega))
            · have := hout.taken_le
              exact Or.inr (Or.inl (by omega))

/-- What the reads of a stream have come to, and what the next of them does. -/
structure Delivers (source : Source) (p : Pipe) (asked : Nat) : Prop where
  empty : p.stream.pollRead source 0 = (.ready (.ok []), p.stream)
  reads : ∃ bodies tail, Incoming (source.stream.take p.stream.taken) p.delivered bodies tail ∧
    (∀ capacity, 0 < capacity → ∃ bodies' tail',
      Incoming (source.stream.take (p.stream.pollRead source capacity).2.taken)
        (p.delivered ++ deliveredOf (p.stream.pollRead source capacity).1) bodies' tail' ∧
      ReadOutcome source p.stream tail capacity (p.stream.pollRead source capacity) tail') ∧
    (source.Live → source.stream.length ≤ asked →
      tail.isMalformed = true ∨ p.stream.taken = source.stream.length)

/-- The stream is a pipe: what is written are the records of the bytes accepted, what is delivered
are the bodies of the records read, and the handshake before it looks at nothing it has not read. -/
theorem faketls_transparent (sink : Sink) (source : Source) (ops : List PipeOp) :
    let p := Pipe.start.run sink source ops
    (∃ records, Outgoing p.stream.written p.accepted p.stream.txLeft records) ∧
      Delivers source p (asks ops) ∧
      ∀ (hmac : Hmac) (key : Bytes) (domain : Option Bytes) (w : HelloWorld) (incoming : Bytes),
        connectFaketls hmac key domain w incoming ≠ .error .panic := by
  intro p
  have hkept : Kept source p := (Kept.start source).run ops
  refine ⟨hkept.writes.outgoing, ⟨rfl, ?_⟩, fun hmac key domain w incoming =>
    (safe_connectFaketls hmac key domain w incoming).ne_panic⟩
  by_cases hlive : source.Live
  · obtain ⟨bodies, tail, hreads, -, hprogress⟩ :=
      Reads.progress (p := Pipe.start) sink hlive ops (Reads.new source)
    refine ⟨bodies, tail, hreads.incoming, fun capacity hcapacity => ?_, fun _ hasked => ?_⟩
    · obtain ⟨bodies', tail', hreads', hout⟩ := hreads.pollRead hcapacity
      exact ⟨bodies', tail', hreads'.incoming, hout⟩
    · have hle := hreads.taken_le
      have hzero : Pipe.start.stream.taken = 0 := rfl
      rcases hprogress with h | h | h
      · exact Or.inl h
      · exact Or.inr h
      · exact Or.inr (by simp only [p]; omega)
  · obtain ⟨bodies, tail, hreads⟩ := hkept.reads
    refine ⟨bodies, tail, hreads.incoming, fun capacity hcapacity => ?_, fun h => absurd h hlive⟩
    obtain ⟨bodies', tail', hreads', hout⟩ := hreads.pollRead hcapacity
    exact ⟨bodies', tail', hreads'.incoming, hout⟩

end FakeTlsStream

end Grammers
