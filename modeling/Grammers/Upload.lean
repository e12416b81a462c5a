import Grammers.PartStream
import Mathlib.Order.Lattice

namespace Grammers.Files

open ByteSource LabelledPath

variable {ε : Type} {p : PartStream ε} {c c' : Calls ε} {worker : Worker}

/-- What the call that holds the lock has read so far. -/
def Calls.buffer (c : Calls ε) : List UInt8 := (c.lock.map Prod.snd).getD []

/-- The part with some number, as far as the stream has it. -/
def PartStream.part (p : PartStream ε) (j : Nat) : List UInt8 :=
  grab p.stream (j * maxChunkSize) maxChunkSize

theorem handed_unlock_none (c : Calls ε) (worker : Worker) :
    (c.unlock worker (.ok none)).handed = c.handed := by
  simp [Calls.unlock, Calls.handed]

theorem handed_unlock_error (c : Calls ε) (worker : Worker) (error : UploadError ε) :
    (c.unlock worker (.error error)).handed = c.handed := by
  simp [Calls.unlock, Calls.handed]

theorem handed_deliver (c : Calls ε) (worker : Worker) (bytes : List UInt8) :
    (c.deliver worker bytes).handed = c.handed ++ [(c.inner.currentPart, bytes)] := by
  simp [Calls.deliver, Calls.unlock, Calls.handed]

theorem failures_unlock_none (c : Calls ε) (worker : Worker) :
    (c.unlock worker (.ok none)).failures = c.failures := by
  simp [Calls.unlock, Calls.failures]

theorem failures_unlock_error (c : Calls ε) (worker : Worker) (error : UploadError ε) :
    (c.unlock worker (.error error)).failures = c.failures ++ [error] := by
  simp [Calls.unlock, Calls.failures]

theorem failures_deliver (c : Calls ε) (worker : Worker) (bytes : List UInt8) :
    (c.deliver worker bytes).failures = c.failures := by
  simp [Calls.deliver, Calls.unlock, Calls.failures]

theorem finished_unlock_error {error : UploadError ε}
    (h : (c.unlock worker (.error error)).Finished) : c.Finished := by
  obtain ⟨w, hw⟩ := h
  exact ⟨w, by simpa [Calls.unlock] using hw⟩

theorem finished_deliver {bytes : List UInt8} (h : (c.deliver worker bytes).Finished) :
    c.Finished := by
  obtain ⟨w, hw⟩ := h
  exact ⟨w, by simpa [Calls.deliver, Calls.unlock] using hw⟩

/-- While no call has failed or come too late, each has been handed a part. -/
theorem returned_length (hf : c.failures = []) (hn : ¬c.Finished) :
    c.returned.length = c.handed.length := by
  obtain ⟨inner, lock, returned⟩ := c
  induction returned with
  | nil => rfl
  | cons call returned ih =>
    obtain ⟨w, outcome⟩ := call
    have hn' : ¬Calls.Finished (ε := ε) ⟨inner, lock, returned⟩ := by
      rintro ⟨w', hw'⟩
      exact hn ⟨w', List.mem_cons_of_mem _ hw'⟩
    cases outcome with
    | error error => simp [Calls.failures] at hf
    | ok part =>
      cases part with
      | none => exact absurd ⟨w, List.mem_cons_self⟩ hn
      | some part =>
        have := ih (by simpa [Calls.failures] using hf) hn'
        simpa [Calls.handed] using this

/-- Nothing has failed: the cursor is where the parts handed out and the buffer end. -/
structure Filling (p : PartStream ε) (c : Calls ε) : Prop where
  failures : c.failures = []
  idle : c.inner.currentPart = p.totalParts → c.lock = none
  short : c.inner.currentPart < p.totalParts → c.buffer.length < maxChunkSize
  buffer : c.inner.currentPart < p.totalParts →
    c.buffer = grab p.stream (c.inner.currentPart * maxChunkSize) c.buffer.length
  position : c.inner.currentPart < p.totalParts →
    c.inner.position = c.inner.currentPart * maxChunkSize + c.buffer.length
  ended : c.inner.currentPart = p.totalParts →
    c.inner.position = p.totalParts * maxChunkSize ∨ p.stream c.inner.position = .eof

/-- The error of every call for a part that the stream does not reach. -/
def PartStream.obstacle (p : PartStream ε) (c : Calls ε) : Option (UploadError ε) :=
  match p.stream c.inner.position with
  | .byte _ => none
  | .eof => if c.inner.currentPart + 1 < p.totalParts then some .unexpectedEof else none
  | .failed error => some (.stream error)

/-- A call has failed, and so does every later one. -/
structure Stuck (p : PartStream ε) (c : Calls ε) : Prop where
  current : c.inner.currentPart < p.totalParts
  failed : c.failures ≠ []
  failures : ∀ error ∈ c.failures, p.obstacle c = some error
  buffer : c.buffer = []
  lower : c.inner.currentPart * maxChunkSize ≤ c.inner.position
  upper : c.inner.position < (c.inner.currentPart + 1) * maxChunkSize

structure Progress (p : PartStream ε) (c : Calls ε) : Prop where
  le : c.inner.currentPart ≤ p.totalParts
  has : Has p.stream c.inner.position
  bound : c.inner.position ≤ p.totalParts * maxChunkSize
  handed : c.handed = (List.range c.inner.currentPart).map fun j => (j, p.part j)
  whole : ∀ j < c.inner.currentPart, j + 1 < p.totalParts → (p.part j).length = maxChunkSize
  finished : c.Finished → c.inner.currentPart = p.totalParts
  phase : Filling p c ∨ Stuck p c

theorem Progress.new (p : PartStream ε) : Progress p Calls.new := by
  refine ⟨Nat.zero_le _, ?_, Nat.zero_le _, rfl, ?_, ?_, Or.inl ⟨rfl, fun _ => rfl, ?_, ?_, ?_, ?_⟩⟩
  · intro i hi
    exact absurd hi (Nat.not_lt_zero i)
  · intro j hj
    exact absurd hj (Nat.not_lt_zero j)
  · rintro ⟨w, hw⟩
    simp [Calls.new] at hw
  · intro _
    show 0 < maxChunkSize
    decide
  · intro _
    rfl
  · intro _
    show 0 = 0 * maxChunkSize + 0
    omega
  · intro h
    left
    show 0 = p.totalParts * maxChunkSize
    rw [← show (0 : Nat) = p.totalParts from h, Nat.zero_mul]

theorem Progress.told (h : Progress p c) (hc : p.totalParts ≤ c.inner.currentPart)
    (worker : Worker) : Progress p (c.unlock worker (.ok none)) := by
  have heq : c.inner.currentPart = p.totalParts := h.le.antisymm hc
  have hlt : ¬c.inner.currentPart < p.totalParts := by omega
  refine ⟨h.le, h.has, h.bound, ?_, h.whole, fun _ => heq, ?_⟩
  · rw [handed_unlock_none]
    exact h.handed
  · rcases h.phase with hf | hs
    · left
      refine ⟨?_, fun _ => rfl, fun h => absurd h hlt, fun h => absurd h hlt,
        fun h => absurd h hlt, hf.ended⟩
      rw [failures_unlock_none]
      exact hf.failures
    · exact absurd hs.current hlt

theorem Progress.locked (h : Progress p c) (hl : c.lock = none)
    (hc : c.inner.currentPart < p.totalParts) (worker : Worker) :
    Progress p { c with lock := some (worker, []) } := by
  have hb : c.buffer = [] := by simp [Calls.buffer, hl]
  refine ⟨h.le, h.has, h.bound, h.handed, h.whole, h.finished, ?_⟩
  rcases h.phase with hf | hs
  · left
    have hp := hf.position hc
    rw [hb] at hp
    refine ⟨hf.failures, fun he => absurd he hc.ne, fun _ => ?_, fun _ => rfl, fun _ => hp,
      hf.ended⟩
    show 0 < maxChunkSize
    decide
  · right
    exact ⟨hs.current, hs.failed, hs.failures, rfl, hs.lower, hs.upper⟩

theorem Progress.failed (h : Progress p c) (hc : c.inner.currentPart < p.totalParts)
    {error : UploadError ε} (ho : p.obstacle c = some error) (worker : Worker) :
    Progress p (c.unlock worker (.error error)) := by
  refine ⟨h.le, h.has, h.bound, ?_, h.whole, fun hfin => h.finished (finished_unlock_error hfin),
    Or.inr ?_⟩
  · rw [handed_unlock_error]
    exact h.handed
  · have hne : (c.unlock worker (.error error)).failures ≠ [] := by
      rw [failures_unlock_error]
      simp
    have hall : ∀ e ∈ c.failures, p.obstacle c = some e := by
      rcases h.phase with hf | hs
      · simp [hf.failures]
      · exact hs.failures
    have hfail : ∀ e ∈ (c.unlock worker (.error error)).failures, p.obstacle c = some e := by
      intro e he
      rw [failures_unlock_error] at he
      rcases List.mem_append.mp he with he | he
      · exact hall e he
      · exact List.mem_singleton.mp he ▸ ho
    rcases h.phase with hf | hs
    · have hp := hf.position hc
      have hshort := hf.short hc
      refine ⟨hc, hne, hfail, rfl, ?_, ?_⟩
      · show c.inner.currentPart * maxChunkSize ≤ c.inner.position
        omega
      · show c.inner.position < (c.inner.currentPart + 1) * maxChunkSize
        rw [Nat.succ_mul]
        omega
    · exact ⟨hc, hne, hfail, rfl, hs.lower, hs.upper⟩

/-- A part that was read as far as the stream has it is handed out. -/
theorem Progress.delivered (h : Progress p c) (hf : c.failures = [])
    (hc : c.inner.currentPart < p.totalParts) {bytes : List UInt8} {position : Nat}
    (hhas : Has p.stream position) (hbytes : bytes = p.part c.inner.currentPart)
    (hposition : position = c.inner.currentPart * maxChunkSize + bytes.length)
    (hend : bytes.length = maxChunkSize ∨
      c.inner.currentPart + 1 = p.totalParts ∧ p.stream position = .eof) (worker : Worker) :
    Progress p (Calls.deliver { c with inner := { c.inner with position := position } }
      worker bytes) := by
  have hle : bytes.length ≤ maxChunkSize := hbytes ▸ length_grab_le _ _ _
  have hnext : (c.inner.currentPart + 1) * maxChunkSize ≤ p.totalParts * maxChunkSize :=
    Nat.mul_le_mul_right _ hc
  have hsucc : (c.inner.currentPart + 1) * maxChunkSize =
      c.inner.currentPart * maxChunkSize + maxChunkSize := Nat.succ_mul _ _
  refine ⟨hc, hhas, ?_, ?_, ?_, ?_, Or.inl ?_⟩
  · show position ≤ _
    omega
  · rw [handed_deliver]
    show c.handed ++ _ = (List.range (c.inner.currentPart + 1)).map _
    rw [List.range_succ, List.map_append, ← h.handed, hbytes]
    rfl
  · intro j hj hlast
    rcases Nat.lt_succ_iff_lt_or_eq.mp hj with hj | rfl
    · exact h.whole j hj hlast
    · rcases hend with hfull | ⟨he, _⟩
      · rw [← hfull, hbytes]
      · exact absurd hlast he.not_lt
  · intro hfin
    exact absurd (h.finished (finished_deliver hfin)) hc.ne
  · refine ⟨?_, fun _ => rfl, fun _ => ?_, fun _ => rfl, fun hlt => ?_, fun he => ?_⟩
    · rw [failures_deliver]
      exact hf
    · show 0 < maxChunkSize
      decide
    · show position = (c.inner.currentPart + 1) * maxChunkSize + 0
      rcases hend with hfull | ⟨he, _⟩
      · omega
      · exact absurd he (show c.inner.currentPart + 1 < p.totalParts from hlt).ne
    · show position = p.totalParts * maxChunkSize ∨ p.stream position = .eof
      rcases hend with hfull | ⟨_, heof⟩
      · left
        rw [← show c.inner.currentPart + 1 = p.totalParts from he]
        omega
      · exact Or.inr heof

/-- A read continues the buffer along the stream. -/
theorem Progress.read_on (h : Progress p c) (hf : Filling p c)
    (hc : c.inner.currentPart < p.totalParts) (n : Nat) :
    Has p.stream (c.inner.position + (grab p.stream c.inner.position n).length) ∧
      c.buffer ++ grab p.stream c.inner.position n =
        grab p.stream (c.inner.currentPart * maxChunkSize)
          (c.buffer ++ grab p.stream c.inner.position n).length := by
  have hbuffer := hf.buffer hc
  have hfull : (grab p.stream (c.inner.currentPart * maxChunkSize) c.buffer.length).length =
      c.buffer.length := congrArg List.length hbuffer.symm
  refine ⟨fun i hi => ?_, ?_⟩
  · rcases Nat.lt_or_ge i c.inner.position with hlt | hge
    · exact h.has i hlt
    · obtain ⟨m, rfl⟩ := Nat.exists_eq_add_of_le hge
      exact isByte_of_lt_length (Nat.lt_of_add_lt_add_left hi)
  · rw [List.length_append, grab_add hfull, ← hbuffer, ← hf.position hc, grab_length_grab]

theorem Progress.read (h : Progress p c) {ready : Nat} (hs : p.read c worker ready = some c') :
    Progress p c' := by
  obtain ⟨holder, buffer, hl⟩ : ∃ holder buffer, c.lock = some (holder, buffer) := by
    cases hl : c.lock with
    | none => simp [PartStream.read, hl] at hs
    | some held => exact ⟨held.1, held.2, rfl⟩
  have hbuffer : c.buffer = buffer := by simp [Calls.buffer, hl]
  have hc : c.inner.currentPart < p.totalParts := by
    refine lt_of_le_of_ne h.le fun he => ?_
    rcases h.phase with hf | hst
    · simp [hf.idle he] at hl
    · exact absurd he hst.current.ne
  simp only [PartStream.read, hl] at hs
  split at hs
  next => simp at hs
  next hready =>
    split at hs
    next error hp =>
      obtain rfl := Option.some.inj hs
      exact h.failed hc (by simp [PartStream.obstacle, hp]) worker
    next hp =>
      split at hs
      next hlast =>
        obtain rfl := Option.some.inj hs
        have hend : c.inner.currentPart + 1 = p.totalParts := by omega
        rcases h.phase with hf | hst
        · have hpos := hf.position hc
          have hbuf := hf.buffer hc
          have hstop : (p.stream (c.inner.currentPart * maxChunkSize + c.buffer.length)).isByte =
              false := by rw [← hpos, hp]; rfl
          have hpart := grab_of_stop (congrArg List.length hbuf.symm) hstop
            (maxChunkSize - c.buffer.length)
          rw [Nat.add_sub_cancel' (hf.short hc).le, ← hbuf] at hpart
          rw [← hbuffer]
          exact h.delivered hf.failures hc h.has hpart.symm hpos (Or.inr ⟨hend, hp⟩) worker
        · obtain ⟨error, he⟩ := List.exists_mem_of_ne_nil _ hst.failed
          have ho := hst.failures error he
          rw [PartStream.obstacle, hp] at ho
          simp [hend] at ho
      next hlast =>
        obtain rfl := Option.some.inj hs
        refine h.failed hc ?_ worker
        simp only [PartStream.obstacle, hp]
        rw [if_pos (by omega)]
    next a hp =>
      have hf : Filling p c := by
        rcases h.phase with hf | hst
        · exact hf
        · obtain ⟨error, he⟩ := List.exists_mem_of_ne_nil _ hst.failed
          have ho := hst.failures error he
          simp [PartStream.obstacle, hp] at ho
      obtain ⟨n, hn⟩ : ∃ n, n = min ready (maxChunkSize - buffer.length) := ⟨_, rfl⟩
      obtain ⟨hhas, hgrab⟩ := h.read_on hf hc n
      have hle := length_grab_le p.stream c.inner.position n
      have hpos := hf.position hc
      have hshort := hf.short hc
      rw [hbuffer] at hgrab hpos hshort
      have hlen : (buffer ++ grab p.stream c.inner.position n).length ≤ maxChunkSize := by
        rw [List.length_append]
        omega
      rw [← hn] at hs
      split at hs
      next hfull =>
        obtain rfl := Option.some.inj hs
        refine h.delivered hf.failures hc hhas ?_ ?_ (Or.inl hfull) worker
        · rw [hfull] at hgrab
          exact hgrab
        · rw [List.length_append]
          omega
      next hnot =>
        obtain rfl := Option.some.inj hs
        have hnext : (c.inner.currentPart + 1) * maxChunkSize ≤ p.totalParts * maxChunkSize :=
          Nat.mul_le_mul_right _ hc
        rw [Nat.succ_mul] at hnext
        rw [List.length_append] at hlen hnot
        refine ⟨h.le, hhas, ?_, h.handed, h.whole, h.finished, Or.inl
          ⟨hf.failures, fun he => absurd he hc.ne, fun _ => ?_, fun _ => hgrab, fun _ => ?_,
            fun he => absurd he hc.ne⟩⟩
        · show c.inner.position + _ ≤ _
          omega
        · show (buffer ++ _).length < _
          rw [List.length_append]
          omega
        · show c.inner.position + _ = c.inner.currentPart * maxChunkSize + (buffer ++ _).length
          rw [List.length_append]
          omega

theorem Progress.step (h : Progress p c) {event : Event} (hs : p.Steps c event c') :
    Progress p c' := by
  cases event with
  | nextPart worker =>
    simp only [PartStream.Steps, PartStream.step, PartStream.nextPart] at hs
    split at hs
    next => simp at hs
    next hl =>
      split at hs
      next hc =>
        obtain rfl := Option.some.inj hs
        exact h.told hc worker
      next hc =>
        obtain rfl := Option.some.inj hs
        exact h.locked (by simpa using hl) (by omega) worker
  | read worker ready => exact h.read hs

theorem Progress.of_path {events : List Event} (h : Path p.Steps Calls.new events c) :
    Progress p c :=
  h.invariant (fun _ _ _ hp hs => hp.step hs) (Progress.new p)

/-! Every call comes to an end. -/

/-- A read with bytes at hand ends the call or fills more of its buffer. -/
theorem read_advances {buffer : List UInt8} (hl : c.lock = some (worker, buffer))
    (hb : buffer.length < maxChunkSize) (p : PartStream ε) :
    ∃ c', p.read c worker maxChunkSize = some c' ∧
      (c'.lock = none ∧ c'.returned.length = c.returned.length + 1 ∨
        ∃ buffer', c'.lock = some (worker, buffer') ∧ buffer'.length < maxChunkSize ∧
          buffer.length < buffer'.length ∧ c'.returned = c.returned) := by
  have hready : ¬(worker ≠ worker ∨ maxChunkSize = 0) := by
    rintro (h | h)
    · exact h rfl
    · exact absurd h (by decide)
  simp only [PartStream.read, hl, if_neg hready]
  cases hp : p.stream c.inner.position with
  | failed error => exact ⟨_, rfl, Or.inl ⟨rfl, by simp [Calls.unlock]⟩⟩
  | eof =>
    simp only
    split
    next => exact ⟨_, rfl, Or.inl ⟨rfl, by simp [Calls.deliver, Calls.unlock]⟩⟩
    next => exact ⟨_, rfl, Or.inl ⟨rfl, by simp [Calls.unlock]⟩⟩
  | byte a =>
    simp only
    split
    next => exact ⟨_, rfl, Or.inl ⟨rfl, by simp [Calls.deliver, Calls.unlock]⟩⟩
    next hnot =>
      have hle := length_grab_le p.stream c.inner.position
        (min maxChunkSize (maxChunkSize - buffer.length))
      have hpos := @length_grab_pos _ _ p.stream c.inner.position _
        (by rw [hp]; rfl) (show 0 < min maxChunkSize (maxChunkSize - buffer.length) by omega)
      rw [List.length_append] at hnot
      refine ⟨_, rfl, Or.inr ⟨_, rfl, ?_, ?_, rfl⟩⟩
      · rw [List.length_append]
        omega
      · rw [List.length_append]
        omega

theorem exists_unlock {buffer : List UInt8} (hl : c.lock = some (worker, buffer))
    (hb : buffer.length < maxChunkSize) (p : PartStream ε) :
    ∃ events c', Path p.Steps c events c' ∧ c'.lock = none ∧
      c'.returned.length = c.returned.length + 1 := by
  obtain ⟨d, hd⟩ : ∃ d, d = maxChunkSize - buffer.length := ⟨_, rfl⟩
  induction d using Nat.strong_induction_on generalizing c buffer with
  | _ d ih =>
    obtain ⟨c1, hr, ⟨hlock, hlen⟩ | ⟨buffer', hlock, hshort, hmore, hsame⟩⟩ :=
      read_advances hl hb p
    · have hpath : Path p.Steps c [.read worker maxChunkSize] c1 := Path.single hr
      exact ⟨_, c1, hpath, hlock, hlen⟩
    · obtain ⟨events, c2, hpath, hlock', hlen⟩ :=
        ih (maxChunkSize - buffer'.length) (by omega) hlock hshort rfl
      refine ⟨.read worker maxChunkSize :: events, c2, Path.cons hr hpath, hlock', ?_⟩
      rw [hlen, hsame]

theorem exists_return (hl : c.lock = none) (p : PartStream ε) :
    ∃ events c', Path p.Steps c events c' ∧ c'.lock = none ∧
      c'.returned.length = c.returned.length + 1 := by
  by_cases hc : p.totalParts ≤ c.inner.currentPart
  · have hcall : p.Steps c (.nextPart 0) (c.unlock 0 (.ok none)) := by
      simp [PartStream.Steps, PartStream.step, PartStream.nextPart, hl, hc]
    exact ⟨_, _, Path.single hcall, rfl, by simp [Calls.unlock]⟩
  · have hcall : p.Steps c (.nextPart 0) { c with lock := some (0, []) } := by
      simp [PartStream.Steps, PartStream.step, PartStream.nextPart, hl, hc]
    obtain ⟨events, c', hpath, hlock, hlen⟩ := exists_unlock
      (c := { c with lock := some (0, []) }) rfl (show 0 < maxChunkSize by decide) p
    exact ⟨.nextPart 0 :: events, c', Path.cons hcall hpath, hlock, hlen⟩

/-- From every state reached, as many calls return as are made. -/
theorem Progress.exists_returns (h : Progress p c) (k : Nat) :
    ∃ events c', Path p.Steps c events c' ∧ c'.lock = none ∧ k ≤ c'.returned.length := by
  induction k with
  | zero =>
    cases hl : c.lock with
    | none => exact ⟨[], c, Path.nil, hl, Nat.zero_le _⟩
    | some held =>
      have hb : held.2 = c.buffer := by simp [Calls.buffer, hl]
      have hshort : held.2.length < maxChunkSize := by
        rw [hb]
        rcases h.phase with hf | hst
        · refine hf.short (lt_of_le_of_ne h.le fun he => ?_)
          simp [hf.idle he] at hl
        · rw [hst.buffer]
          decide
      obtain ⟨events, c', hpath, hlock, _⟩ := exists_unlock hl hshort p
      exact ⟨events, c', hpath, hlock, Nat.zero_le _⟩
  | succ k ih =>
    obtain ⟨events, c1, hpath, hlock, hlen⟩ := ih
    obtain ⟨events', c2, hpath', hlock', hlen'⟩ := exists_return hlock p
    exact ⟨_, c2, hpath.append hpath', hlock', by omega⟩

/-! What the parts amount to. -/

theorem flatten_full_parts (k : Nat) (h : ∀ j < k, (p.part j).length = maxChunkSize) :
    ((List.range k).map p.part).flatten = grab p.stream 0 (k * maxChunkSize) ∧
      (grab p.stream 0 (k * maxChunkSize)).length = k * maxChunkSize := by
  induction k with
  | zero => simp [grab_zero]
  | succ k ih =>
    obtain ⟨h1, h2⟩ := ih fun j hj => h j (by omega)
    have hadd := grab_add h2 maxChunkSize
    rw [Nat.zero_add] at hadd
    refine ⟨?_, ?_⟩
    · rw [List.range_succ, List.map_append, List.flatten_append, h1, Nat.succ_mul, hadd]
      simp [PartStream.part]
    · rw [Nat.succ_mul, hadd, List.length_append, h2]
      exact congrArg (k * maxChunkSize + ·) (h k (Nat.lt_succ_self k))

theorem flatten_parts (k : Nat) (h : ∀ j, j + 1 < k → (p.part j).length = maxChunkSize) :
    ((List.range k).map p.part).flatten = grab p.stream 0 (k * maxChunkSize) := by
  cases k with
  | zero => simp [grab_zero]
  | succ k =>
    obtain ⟨h1, h2⟩ := flatten_full_parts (p := p) k fun j hj => h j (by omega)
    have hadd := grab_add h2 maxChunkSize
    rw [Nat.zero_add] at hadd
    rw [List.range_succ, List.map_append, List.flatten_append, h1, Nat.succ_mul, hadd]
    simp [PartStream.part]

theorem new_totalParts {stream : Stream ε} {size : Nat} (h : PartStream.new stream size = .ok p) :
    p.stream = stream ∧ size ≤ p.totalParts * maxChunkSize ∧
      (0 < p.totalParts → (p.totalParts - 1) * maxChunkSize < size) := by
  unfold PartStream.new at h
  simp only at h
  split at h
  next =>
    obtain rfl := Except.ok.inj h
    refine ⟨rfl, ?_, ?_⟩
    · simp only [maxChunkSize]
      omega
    · simp only [maxChunkSize]
      omega
  next => simp at h

/-- What the parts handed out so far owe to the declared size: they are numbered from zero
and whole but for the last, the stream is not read past that size, and once no part is left
they make up just its first bytes. -/
structure Calls.Exact (p : PartStream ε) (size : Nat) (c : Calls ε) : Prop where
  failures : c.failures = []
  numbered : c.handed.map Prod.fst = List.range c.handed.length
  within : c.handed.length ≤ p.totalParts
  whole : ∀ part ∈ c.handed, part.1 + 1 < p.totalParts → part.2.length = maxChunkSize
  unread : c.inner.position ≤ size
  complete : c.Finished → c.handed.length = p.totalParts ∧
    (c.handed.map Prod.snd).flatten = grab p.stream 0 size

/-- In every run calls keep returning. If the stream has the declared bytes, just these are
sent; if it is shorter, some call of those that would take all parts fails at its end. -/
structure PartStream.SendsDeclared (p : PartStream ε) (size : Nat) : Prop where
  returns : ∀ events c, Path p.Steps Calls.new events c →
    ∃ events' c', Path p.Steps c events' c' ∧ p.totalParts < c'.returned.length
  exact : Has p.stream size → ∀ events c, Path p.Steps Calls.new events c → c.Exact p size
  short : ¬Has p.stream size → ∀ events c, Path p.Steps Calls.new events c →
    p.totalParts ≤ c.returned.length → .unexpectedEof ∈ c.failures

/-- The streams that go well with a declared size: those that have it in whole parts, end
just there, or end before the last part. -/
def PartStream.Fits (p : PartStream ε) (size : Nat) : Prop :=
  (Has p.stream size ∧ maxChunkSize ∣ size) ∨ EndsAt p.stream size ∨
    ∃ n < (p.totalParts - 1) * maxChunkSize, EndsAt p.stream n

theorem Progress.map_fst_handed (h : Progress p c) :
    c.handed.map Prod.fst = List.range c.handed.length ∧ c.handed.length = c.inner.currentPart := by
  have hlen : c.handed.length = c.inner.currentPart := by rw [h.handed]; simp
  refine ⟨?_, hlen⟩
  rw [hlen, h.handed, List.map_map]
  exact List.map_id _

theorem Progress.map_snd_handed (h : Progress p c) :
    c.handed.map Prod.snd = (List.range c.inner.currentPart).map p.part := by
  rw [h.handed, List.map_map]
  rfl

theorem Progress.handed_whole (h : Progress p c) {part : Nat × List UInt8} (hm : part ∈ c.handed)
    (hlast : part.1 + 1 < p.totalParts) : part.2.length = maxChunkSize := by
  rw [h.handed] at hm
  obtain ⟨j, hj, rfl⟩ := List.mem_map.mp hm
  exact h.whole j (List.mem_range.mp hj) hlast

/-- A call only fails where the stream does not go on, in the part it is at. -/
theorem Stuck.not_byte (h : Stuck p c) : (p.stream c.inner.position).isByte = false := by
  obtain ⟨error, he⟩ := List.exists_mem_of_ne_nil _ h.failed
  have ho := h.failures error he
  cases hp : p.stream c.inner.position with
  | byte a => simp [PartStream.obstacle, hp] at ho
  | eof => rfl
  | failed error => rfl

theorem Stuck.of_unexpectedEof (h : Stuck p c) (he : .unexpectedEof ∈ c.failures) :
    p.stream c.inner.position = .eof ∧
      c.inner.position < (p.totalParts - 1) * maxChunkSize := by
  have ho := h.failures _ he
  cases hp : p.stream c.inner.position with
  | byte a => simp [PartStream.obstacle, hp] at ho
  | failed error => simp [PartStream.obstacle, hp] at ho
  | eof =>
    simp only [PartStream.obstacle, hp, ite_eq_left_iff, reduceCtorEq, imp_false, not_not] at ho
    refine ⟨rfl, h.upper.trans_le (Nat.mul_le_mul_right _ ?_)⟩
    omega

/-- A stream that has the declared bytes, and nothing the last part takes beyond them. -/
theorem Progress.exact (h : Progress p c) {size : Nat} (hsize : size ≤ p.totalParts * maxChunkSize)
    (hlast : 0 < p.totalParts → (p.totalParts - 1) * maxChunkSize < size)
    (hhas : Has p.stream size)
    (hfit : size = p.totalParts * maxChunkSize ∨ p.stream size = .eof) : c.Exact p size := by
  have hf : Filling p c := by
    rcases h.phase with hf | hst
    · exact hf
    have hle := hhas.le_of_stop hst.not_byte
    have hnext : (c.inner.currentPart + 1) * maxChunkSize ≤ p.totalParts * maxChunkSize :=
      Nat.mul_le_mul_right _ hst.current
    have hupper := hst.upper
    rcases hfit with heq | heof
    · omega
    · have heq : c.inner.position = size := (h.has.le_of_stop (by rw [heof]; rfl)).antisymm hle
      obtain ⟨error, he⟩ := List.exists_mem_of_ne_nil _ hst.failed
      have ho := hst.failures error he
      simp only [PartStream.obstacle, heq, heof] at ho
      split at ho
      next hlt =>
        have : (c.inner.currentPart + 1) * maxChunkSize ≤ (p.totalParts - 1) * maxChunkSize :=
          Nat.mul_le_mul_right _ (by omega)
        omega
      next => simp at ho
  obtain ⟨hfst, hlen⟩ := h.map_fst_handed
  refine ⟨hf.failures, hfst, hlen ▸ h.le, fun part hm => h.handed_whole hm, ?_, fun hfin => ?_⟩
  · rcases hfit with heq | heof
    · rw [heq]
      exact h.bound
    · exact h.has.le_of_stop (by rw [heof]; rfl)
  · have hall := h.finished hfin
    refine ⟨hlen.trans hall, ?_⟩
    rw [h.map_snd_handed, hall, flatten_parts _ fun j hj => h.whole j (by omega) hj]
    rcases hfit with heq | heof
    · rw [heq]
    · have hstop := @grab_of_stop _ _ p.stream 0 size
        (length_grab_of_has (by rwa [Nat.zero_add])) (by rw [Nat.zero_add, heof]; rfl)
        (p.totalParts * maxChunkSize - size)
      rwa [Nat.add_sub_cancel' hsize] at hstop

theorem Progress.short (h : Progress p c) {n : Nat} (hn : n < (p.totalParts - 1) * maxChunkSize)
    (hend : EndsAt p.stream n) (hr : p.totalParts ≤ c.returned.length) :
    .unexpectedEof ∈ c.failures := by
  rcases h.phase with hf | hst
  · -- the part the stream ends in would have to be whole
    have hall : c.inner.currentPart = p.totalParts := by
      by_cases hfin : c.Finished
      · exact h.finished hfin
      · have hlen := returned_length hf.failures hfin
        rw [h.map_fst_handed.2] at hlen
        exact h.le.antisymm (hlen ▸ hr)
    have hpos : 0 < maxChunkSize := by decide
    obtain ⟨j, hj⟩ : ∃ j, j = n / maxChunkSize := ⟨_, rfl⟩
    have hlt : j < p.totalParts - 1 := hj ▸ (Nat.div_lt_iff_lt_mul hpos).mpr hn
    have hwhole := h.whole j (by omega) (by omega)
    have hbyte := length_grab_eq_iff.mp hwhole (n % maxChunkSize) (Nat.mod_lt n hpos)
    rw [hj, Nat.div_add_mod', hend.2] at hbyte
    exact absurd hbyte (by simp [Item.isByte])
  · have heq : c.inner.position = n :=
      (h.has.le_of_stop (by rw [hend.2]; rfl)).antisymm (hend.1.le_of_stop hst.not_byte)
    obtain ⟨error, he⟩ := List.exists_mem_of_ne_nil _ hst.failed
    have ho := hst.failures error he
    simp only [PartStream.obstacle, heq, hend.2] at ho
    split at ho
    next =>
      rw [Option.some.inj ho]
      exact he
    next => simp at ho

theorem sendsDeclared_iff {stream : Stream ε} {size : Nat}
    (hnew : PartStream.new stream size = .ok p) : p.SendsDeclared size ↔ p.Fits size := by
  obtain ⟨_, hsize, hlast⟩ := new_totalParts hnew
  constructor
  · intro hs
    by_cases hhas : Has p.stream size
    · obtain ⟨events, c, hpath, hr⟩ := hs.returns [] Calls.new Path.nil
      have h := Progress.of_path hpath
      have hex := hs.exact hhas events c hpath
      have hfin : c.Finished := by
        by_contra hn
        have hlen := returned_length hex.failures hn
        have := hex.within
        omega
      rcases h.phase with hf | hst
      · rcases hf.ended (h.finished hfin) with hend | heof
        · have := hex.unread
          have heq : size = p.totalParts * maxChunkSize := by omega
          exact Or.inl ⟨hhas, heq ▸ Nat.dvd_mul_left _ _⟩
        · have hle := hhas.le_of_stop (m := c.inner.position) (by rw [heof]; rfl)
          have heq : c.inner.position = size := hex.unread.antisymm hle
          exact Or.inr (Or.inl ⟨hhas, heq ▸ heof⟩)
      · exact absurd hex.failures hst.failed
    · obtain ⟨events, c, hpath, hr⟩ := hs.returns [] Calls.new Path.nil
      have h := Progress.of_path hpath
      have he := hs.short hhas events c hpath hr.le
      rcases h.phase with hf | hst
      · simp [hf.failures] at he
      · obtain ⟨heof, hlt⟩ := hst.of_unexpectedEof he
        exact Or.inr (Or.inr ⟨_, hlt, h.has, heof⟩)
  · intro hfit
    refine ⟨fun events c hpath => ?_, fun hhas events c hpath => ?_,
      fun hnot events c hpath hr => ?_⟩
    · obtain ⟨events', c', hpath', _, hr⟩ :=
        (Progress.of_path hpath).exists_returns (p.totalParts + 1)
      exact ⟨events', c', hpath', hr⟩
    · refine (Progress.of_path hpath).exact hsize hlast hhas ?_
      rcases hfit with ⟨_, hdvd⟩ | hend | ⟨n, hn, hend⟩
      · left
        obtain ⟨k, rfl⟩ := hdvd
        have hk : k = p.totalParts := by
          have hpos : 0 < maxChunkSize := by decide
          rw [Nat.mul_comm maxChunkSize k] at hsize hlast
          have h1 := Nat.le_of_mul_le_mul_right hsize hpos
          rcases Nat.eq_zero_or_pos p.totalParts with h0 | h0
          · omega
          · have h2 := Nat.lt_of_mul_lt_mul_right (hlast h0)
            omega
        rw [hk, Nat.mul_comm]
      · exact Or.inr hend.2
      · have hlt : n < size := hn.trans (hlast (by
          by_contra h0
          rw [show p.totalParts - 1 = 0 by omega, Nat.zero_mul] at hn
          exact absurd hn (Nat.not_lt_zero n)))
        have := hhas n hlt
        rw [hend.2] at this
        simp [Item.isByte] at this
    · rcases hfit with ⟨hhas, _⟩ | hend | ⟨n, hn, hend⟩
      · exact absurd hhas hnot
      · exact absurd hend.1 hnot
      · exact (Progress.of_path hpath).short hn hend hr

/-- An upload sends just the declared bytes if and only if nothing lies between them and the
end of the last part but the end of the stream, or the stream ends before the last part. -/
theorem upload_sends_declared_iff (stream : Stream ε) (size : Nat) :
    (∀ p, PartStream.new stream size = .ok p → p.SendsDeclared size) ↔
      ∀ p, PartStream.new stream size = .ok p → p.Fits size :=
  forall_congr' fun _ => ⟨fun h hnew => (sendsDeclared_iff hnew).mp (h hnew),
    fun h hnew => (sendsDeclared_iff hnew).mpr (h hnew)⟩

/-- With one byte declared of a stream of two, both are sent. -/
theorem upload_sends_undeclared :
    ¬∀ p : PartStream Unit, PartStream.new (Stream.ofBytes [7, 9]) 1 = .ok p → p.SendsDeclared 1 := by
  intro h
  have hs := h ⟨Stream.ofBytes [7, 9], 1⟩ rfl
  have hrun : PartStream.run (ε := Unit) ⟨Stream.ofBytes [7, 9], 1⟩ .new
      [.nextPart 0, .read 0 2, .read 0 1, .nextPart 0] =
        some ⟨⟨2, 1⟩, none, [(0, .ok (some (0, [7, 9]))), (0, .ok none)]⟩ := by decide
  have hhas : Has (Stream.ofBytes (ε := Unit) [7, 9]) 1 := fun i hi => by
    obtain rfl : i = 0 := by omega
    rfl
  have hex := hs.exact hhas _ _ (PartStream.path_run hrun)
  exact absurd (hex.complete ⟨0, by simp⟩).2 (by decide)

end Grammers.Files
