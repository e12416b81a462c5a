import Mathlib.Data.List.Infix
import Grammers.Checked

namespace CursorReader

/-- A position in a buffer, and whatever else a reader carries along. -/
structure Cursor (σ : Type) where
  buf : List UInt8
  pos : Nat
  carried : σ
  deriving DecidableEq

/-- A reader moves its cursor whether it succeeds or fails. -/
abbrev Reader (σ ε α : Type) : Type := EStateM ε (Cursor σ) α

variable {σ ε α β : Type} {r : Reader σ ε α} {f : α → Reader σ ε β} {d : σ} {e : ε}
  {bytes bytes' : List UInt8} {v : α} {w : β}

/-- How a reader ends, with the cursor it leaves. -/
abbrev Result (σ ε α : Type) : Type := EStateM.Result ε (Cursor σ) α

/-- The bytes of a value: a reader takes them and nothing else, and asks for more where some are
missing. -/
structure Code (r : Reader σ ε α) (d : σ) (e : ε) (bytes : List UInt8) (v : α) : Prop where
  decodes : ∀ pre rest, r ⟨pre ++ (bytes ++ rest), pre.length, d⟩ =
    .ok v ⟨pre ++ (bytes ++ rest), pre.length + bytes.length, d⟩
  starves : ∀ pre q, q <+: bytes → q ≠ bytes →
    ∃ c, r ⟨pre ++ q, pre.length, d⟩ = .error e c

theorem Code.pure (v : α) : Code (Pure.pure v : Reader σ ε α) d e [] v := by
  refine ⟨fun pre rest => rfl, fun pre q hq hne => ?_⟩
  exact absurd (List.prefix_nil.mp hq) hne

/-- A part of two codes in a row is a part of the first, or the first with a part of the second. -/
theorem prefix_append_cases {q : List UInt8} (hq : q <+: bytes ++ bytes')
    (hne : q ≠ bytes ++ bytes') :
    (q <+: bytes ∧ q ≠ bytes) ∨ ∃ q', q = bytes ++ q' ∧ q' <+: bytes' ∧ q' ≠ bytes' := by
  rcases List.prefix_or_prefix_of_prefix hq (List.prefix_append bytes bytes') with hle | ⟨q', rfl⟩
  · by_cases heq : q = bytes
    · refine Or.inr ⟨[], by simp [heq], List.nil_prefix, fun hnil => hne ?_⟩
      rw [heq, ← hnil, List.append_nil]
    · exact Or.inl ⟨hle, heq⟩
  · exact Or.inr ⟨q', rfl, (List.prefix_append_right_inj bytes).mp hq, fun heq => hne (by rw [heq])⟩

/-- Codes read one after another. -/
theorem Code.bind (h : Code r d e bytes v) (h' : Code (f v) d e bytes' w) :
    Code (r >>= f) d e (bytes ++ bytes') w := by
  constructor
  · intro pre rest
    have hr := h.decodes pre (bytes' ++ rest)
    have hf := h'.decodes (pre ++ bytes) rest
    simp only [List.append_assoc, List.length_append] at hr hf ⊢
    show EStateM.bind r f _ = _
    simp only [EStateM.bind, hr, hf, Nat.add_assoc]
  · intro pre q hq hne
    rcases prefix_append_cases hq hne with ⟨hpart, hnot⟩ | ⟨q', rfl, hpart, hnot⟩
    · obtain ⟨c, hc⟩ := h.starves pre q hpart hnot
      refine ⟨c, ?_⟩
      show EStateM.bind r f _ = _
      simp only [EStateM.bind, hc]
    · have hr := h.decodes pre q'
      obtain ⟨c, hc⟩ := h'.starves (pre ++ bytes) q' hpart hnot
      refine ⟨c, ?_⟩
      simp only [List.append_assoc, List.length_append] at hc
      show EStateM.bind r f _ = _
      simp only [EStateM.bind, hr, hc]

theorem Code.map {g : α → β} (h : Code r d e bytes v) : Code (g <$> r) d e bytes (g v) := by
  have hbind := h.bind (f := fun a => Pure.pure (g a)) (Code.pure (g v))
  rw [List.append_nil] at hbind
  rwa [← bind_pure_comp]

/-- Read a value a number of times. -/
def readMany (r : Reader σ ε α) : Nat → Reader σ ε (List α)
  | 0 => Pure.pure []
  | n + 1 => do
    let first ← r
    let rest ← readMany r n
    Pure.pure (first :: rest)

theorem Code.many {encode : α → List UInt8} {vs : List α}
    (h : ∀ v ∈ vs, Code r d e (encode v) v) :
    Code (readMany r vs.length) d e (vs.flatMap encode) vs := by
  induction vs with
  | nil => exact Code.pure []
  | cons v vs ih =>
    have hrest := ih fun w hw => h w (List.mem_cons_of_mem _ hw)
    have hcons : Code (do let rest ← readMany r vs.length; Pure.pure (v :: rest)) d e
        (vs.flatMap encode ++ []) (v :: vs) := hrest.bind (Code.pure (v :: vs))
    rw [List.append_nil] at hcons
    exact (h v List.mem_cons_self).bind hcons

/-- A reader that stays inside its buffer, and fails only as allowed. -/
structure Bounded (allowed : ε → Prop) (r : Reader σ ε α) : Prop where
  ok : ∀ c v c', c.pos ≤ c.buf.length → r c = .ok v c' →
    c'.buf = c.buf ∧ c.pos ≤ c'.pos ∧ c'.pos ≤ c.buf.length ∧ c'.carried = c.carried
  error : ∀ c e c', c.pos ≤ c.buf.length → r c = .error e c' →
    allowed e ∧ c'.buf = c.buf ∧ c.pos ≤ c'.pos ∧ c'.pos ≤ c.buf.length ∧ c'.carried = c.carried

variable {allowed : ε → Prop}

theorem Bounded.pure (v : α) : Bounded allowed (Pure.pure v : Reader σ ε α) := by
  constructor
  · intro c v' c' hc h
    obtain ⟨rfl, rfl⟩ := EStateM.Result.ok.inj h
    exact ⟨rfl, le_rfl, hc, rfl⟩
  · intro c e c' _ h
    cases h

theorem Bounded.throw {e : ε} (he : allowed e) : Bounded allowed (throw e : Reader σ ε α) := by
  constructor
  · intro c v c' _ h
    cases h
  · intro c e' c' hc h
    obtain ⟨rfl, rfl⟩ := EStateM.Result.error.inj h
    exact ⟨he, rfl, le_rfl, hc, rfl⟩

/-- What follows a reader need only be bounded on what the reader can return. -/
theorem Bounded.bind_result (h : Bounded allowed r)
    (h' : ∀ c v c', r c = .ok v c' → Bounded allowed (f v)) : Bounded allowed (r >>= f) := by
  constructor
  · intro c w c' hc hrun
    change EStateM.bind r f c = _ at hrun
    simp only [EStateM.bind] at hrun
    split at hrun
    next v c1 hr =>
      obtain ⟨hbuf, hle, hend, hcarried⟩ := h.ok c v c1 hc hr
      obtain ⟨hbuf', hle', hend', hcarried'⟩ := (h' c v c1 hr).ok c1 w c' (by rw [hbuf]; exact hend) hrun
      rw [hbuf] at hend'
      exact ⟨hbuf'.trans hbuf, hle.trans hle', hend', hcarried'.trans hcarried⟩
    next => cases hrun
  · intro c e c' hc hrun
    change EStateM.bind r f c = _ at hrun
    simp only [EStateM.bind] at hrun
    split at hrun
    next v c1 hr =>
      obtain ⟨hbuf, hle, hend, hcarried⟩ := h.ok c v c1 hc hr
      obtain ⟨he, hbuf', hle', hend', hcarried'⟩ :=
        (h' c v c1 hr).error c1 e c' (by rw [hbuf]; exact hend) hrun
      rw [hbuf] at hend'
      exact ⟨he, hbuf'.trans hbuf, hle.trans hle', hend', hcarried'.trans hcarried⟩
    next e' c1 hr =>
      obtain ⟨rfl, rfl⟩ := EStateM.Result.error.inj hrun
      exact h.error c _ _ hc hr

theorem Bounded.bind (h : Bounded allowed r) (h' : ∀ v, Bounded allowed (f v)) :
    Bounded allowed (r >>= f) :=
  h.bind_result fun _ v _ _ => h' v

theorem Bounded.map {g : α → β} (h : Bounded allowed r) : Bounded allowed (g <$> r) := by
  rw [← bind_pure_comp]
  exact h.bind fun v => Bounded.pure (g v)

theorem Bounded.many (h : Bounded allowed r) (n : Nat) : Bounded allowed (readMany r n) := by
  induction n with
  | zero => exact Bounded.pure []
  | succ n ih => exact h.bind fun v => ih.bind fun vs => Bounded.pure (v :: vs)

/-- What a reader returns is related to the bytes it goes over. -/
def Takes (r : Reader σ ε α) (P : α → List UInt8 → Prop) : Prop :=
  ∀ c v c', c.pos ≤ c.buf.length → r c = .ok v c' →
    ∃ taken, P v taken ∧ c.buf.drop c.pos = taken ++ c.buf.drop c'.pos ∧ c'.buf = c.buf ∧
      c'.pos = c.pos + taken.length ∧ c'.pos ≤ c.buf.length ∧ c'.carried = c.carried

variable {P : α → List UInt8 → Prop} {Q : β → List UInt8 → Prop}

theorem Takes.pure (h : P v []) : Takes (Pure.pure v : Reader σ ε α) P := by
  intro c v' c' hc hrun
  obtain ⟨rfl, rfl⟩ := EStateM.Result.ok.inj hrun
  exact ⟨[], h, rfl, rfl, rfl, hc, rfl⟩

theorem Takes.throw {e : ε} : Takes (throw e : Reader σ ε α) P := by
  intro c v' c' hc hrun
  cases hrun

theorem Takes.bind (h : Takes r P)
    (h' : ∀ v bytes, P v bytes → Takes (f v) fun w rest => Q w (bytes ++ rest)) :
    Takes (r >>= f) Q := by
  intro c w c' hc hrun
  change EStateM.bind r f c = _ at hrun
  simp only [EStateM.bind] at hrun
  split at hrun
  next v c₁ hr =>
    obtain ⟨bytes, hv, hdrop, hbuf, hpos, hend, hcarried⟩ := h c v c₁ hc hr
    obtain ⟨rest, hw, hdrop', hbuf', hpos', hend', hcarried'⟩ :=
      h' v bytes hv c₁ w c' (by rw [hbuf]; exact hend) hrun
    rw [hbuf] at hdrop' hend'
    refine ⟨bytes ++ rest, hw, ?_, hbuf'.trans hbuf, ?_, hend', hcarried'.trans hcarried⟩
    · rw [hdrop, hdrop', List.append_assoc]
    · rw [hpos', hpos, List.length_append]
      omega
  next => cases hrun

theorem Takes.mono {R : α → List UInt8 → Prop} (h : Takes r P) (hle : ∀ v bytes, P v bytes → R v bytes) :
    Takes r R := by
  intro c v c' hc hrun
  obtain ⟨bytes, hv, hrest⟩ := h c v c' hc hrun
  exact ⟨bytes, hle v bytes hv, hrest⟩

end CursorReader
