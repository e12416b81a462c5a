import Grammers.LabelledPath
import Grammers.Mutex

namespace Grammers.Invocations

open LabelledPath Mutex

inductive InvocationStage where
  | idle
  | pending
  | sent
  deriving DecidableEq

structure TrackerState where
  stage : UInt8
  sentAt : UInt64
  deriving DecidableEq

/-- How far a task is with the permit of a tracker; `first` is when its request was first written. -/
inductive Phase where
  | outside
  | reserved
  | holding (first : Option UInt64)
  | stamped (first : UInt64)
  deriving DecidableEq

/-- An access to the tracker: `clear` is the end of `try_acquire`, `stamp` and `markSent` are the halves
of `mark_sent`. -/
inductive Access where
  | tryAcquire
  | clear
  | stamp (elapsed : Nat)
  | markSent
  | drop
  deriving DecidableEq

namespace TrackerState

def stageOf (c : TrackerState) : InvocationStage :=
  if c.stage = 0 then .idle else if c.stage = 1 then .pending else .sent

/-- Nanoseconds after the origin. -/
def sent (c : TrackerState) : Option UInt64 :=
  if c.sentAt = 0 then none else some (c.sentAt - 1)

end TrackerState

/-- What `mark_sent` leaves of a clock: one more, so that it is not what stands for an unsent request. -/
def stampOf (elapsed : Nat) : UInt64 :=
  (if elapsed < UInt64.size then UInt64.ofNat elapsed else UInt64.ofNat (UInt64.size - 2)) + 1

namespace Phase

def inside : Phase → Bool
  | .outside => false
  | .reserved | .holding _ | .stamped _ => true

def step (c : TrackerState) : Phase → Access → Option (TrackerState × Phase)
  | .outside, .tryAcquire =>
    if c.stage = 0 then some ({ c with stage := 1 }, .reserved) else some (c, .outside)
  | .reserved, .clear => some ({ c with sentAt := 0 }, .holding none)
  | .holding first, .stamp elapsed =>
    some ({ c with sentAt := if c.sentAt = 0 then stampOf elapsed else c.sentAt },
      .stamped (first.getD (stampOf elapsed)))
  | .stamped first, .markSent => some ({ c with stage := 2 }, .holding (some first))
  | .holding _, .drop => some ({ c with stage := 0 }, .outside)
  | _, _ => none

end Phase

/-- A tracker and the tasks that share it. -/
structure State where
  tracker : TrackerState
  tasks : List Phase
  deriving DecidableEq

namespace State

def init (tasks : Nat) : State := ⟨⟨0, 0⟩, List.replicate tasks .outside⟩

def step (s : State) (a : Nat × Access) : Option State :=
  s.tasks[a.1]?.bind fun x => (x.step s.tracker a.2).map fun r => ⟨r.1, s.tasks.set a.1 r.2⟩

def run (s : State) : List (Nat × Access) → Option State
  | [] => some s
  | a :: as => (s.step a).bind fun t => run t as

end State

def Step (s : State) (a : Nat × Access) (t : State) : Prop := s.step a = some t

/-- The clock is not at the one value that overflows: not after 584 years, nor any later. -/
def Access.Timely : Access → Prop
  | .stamp elapsed => elapsed ≠ UInt64.size - 1
  | .tryAcquire | .clear | .markSent | .drop => True

variable {s t : State} {a : Nat × Access} {as bs : List (Nat × Access)} {c c' : TrackerState}
  {x y : Phase} {access : Access} {i : Nat}

theorem stampOf_ne_zero {elapsed : Nat} (h : elapsed ≠ UInt64.size - 1) : stampOf elapsed ≠ 0 := by
  intro hzero
  have hnat := congrArg UInt64.toNat hzero
  unfold stampOf at hnat
  split at hnat
  · simp only [UInt64.toNat_add, UInt64.toNat_ofNat', UInt64.toNat_one, UInt64.toNat_zero] at hnat
    simp only [UInt64.size] at *
    omega
  · exact absurd hzero (by rw [stampOf, if_neg (by assumption)]; decide)

/-- What the tracker is while a task is with its permit. -/
def Phase.Sound (c : TrackerState) : Phase → Prop
  | .outside => True
  | .reserved => c.stage = 1
  | .holding none => c.stage = 1 ∧ c.sentAt = 0
  | .holding (some first) => c.stage = 2 ∧ c.sentAt = first ∧ first ≠ 0
  | .stamped first => c.stage ≠ 0 ∧ c.sentAt = first ∧ first ≠ 0

theorem sound_outside (h : x.inside = false) : x.Sound c := by
  cases x with
  | outside => trivial
  | reserved => cases h
  | holding => cases h
  | stamped => cases h

/-- A step leaves its task with what the tracker then is; it stays outside, is inside, which it comes to
be only of an idle tracker, or leaves the tracker idle. -/
theorem phase_step (hx : x.Sound c) (htime : access.Timely)
    (h : x.step c access = some (c', y)) :
    y.Sound c' ∧ (c' = c ∨ x.inside = true ∨ c.stage = 0) ∧
      ((x.inside = false ∧ y.inside = false ∧ c' = c) ∨
        (y.inside = true ∧ c'.stage ≠ 0 ∧ (x.inside = false → c.stage = 0)) ∨
        (x.inside = true ∧ y.inside = false ∧ c'.stage = 0)) := by
  unfold Phase.step at h
  split at h
  next =>
    split at h
    next hidle =>
      cases h
      exact ⟨rfl, Or.inr (Or.inr hidle), Or.inr (Or.inl ⟨rfl, (by decide : (1 : UInt8) ≠ 0),
        fun _ => hidle⟩)⟩
    next =>
      cases h
      exact ⟨trivial, Or.inl rfl, Or.inl ⟨rfl, rfl, rfl⟩⟩
  next =>
    cases h
    have hstage : c.stage = 1 := hx
    refine ⟨⟨hstage, rfl⟩, Or.inr (Or.inl rfl), Or.inr (Or.inl ⟨rfl, ?_, fun hin => by cases hin⟩)⟩
    change c.stage ≠ 0
    rw [hstage]
    decide
  next first elapsed =>
    cases h
    have hne := stampOf_ne_zero htime
    have hstage : c.stage ≠ 0 := by
      cases first with
      | none => exact hx.1 ▸ by decide
      | some => exact hx.1 ▸ by decide
    refine ⟨⟨hstage, ?_⟩, Or.inr (Or.inl rfl),
      Or.inr (Or.inl ⟨rfl, hstage, fun hin => by cases hin⟩)⟩
    cases first with
    | none => exact ⟨if_pos hx.2, hne⟩
    | some first =>
      obtain ⟨-, hsent, hfirst⟩ := hx
      exact ⟨(if_neg (hsent ▸ hfirst)).trans hsent, hfirst⟩
  next first =>
    cases h
    exact ⟨⟨rfl, hx.2⟩, Or.inr (Or.inl rfl),
      Or.inr (Or.inl ⟨rfl, (by decide : (2 : UInt8) ≠ 0), fun hin => by cases hin⟩)⟩
  next =>
    cases h
    exact ⟨trivial, Or.inr (Or.inl rfl), Or.inr (Or.inr ⟨rfl, rfl, rfl⟩)⟩
  next => cases h

/-- One task at most is with the permit, and none is when the tracker is idle. -/
structure Inv (s : State) : Prop where
  exclusive : ∃ lock, Exclusive Phase.inside lock s.tasks ∧ (s.tracker.stage = 0 ↔ lock = none) ∧
    ∀ i ∈ lock, i < s.tasks.length
  sound : ∀ (i : Nat) (x : Phase), s.tasks[i]? = some x → x.Sound s.tracker

namespace Inv

theorem init (tasks : Nat) : Inv (.init tasks) where
  exclusive := ⟨none, exclusive_none fun x hx => by rw [List.eq_of_mem_replicate hx]; rfl,
    ⟨fun _ => rfl, fun _ => rfl⟩, fun i hi => by cases hi⟩
  sound i x hx := by
    rw [List.eq_of_mem_replicate (List.mem_of_getElem? hx)]
    trivial

theorem step (h : Inv s) (htime : a.2.Timely) (hstep : Step s a t) : Inv t := by
  obtain ⟨x, hx, hmap⟩ := Option.bind_eq_some_iff.mp hstep
  obtain ⟨⟨c', y⟩, hphase, rfl⟩ := Option.map_eq_some_iff.mp hmap
  obtain ⟨hsound, hchange, hkind⟩ := phase_step (h.sound _ x hx) htime hphase
  obtain ⟨lock, hexclusive, hlock, hbound⟩ := h.exclusive
  have henter : x.inside = false → y.inside = true → lock = none := by
    intro hout hin
    rcases hkind with hk | hk | hk
    · rw [hk.2.1] at hin
      cases hin
    · exact hlock.mp (hk.2.2 hout)
    · rw [hk.1] at hout
      cases hout
  refine ⟨⟨_, hexclusive.set hx henter, ?_, ?_⟩, ?_⟩
  · rcases hkind with ⟨hout, hout', rfl⟩ | ⟨hin, hstage, -⟩ | ⟨hin, hout, hidle⟩
    · simpa [Mutex.pass, hout, hout'] using hlock
    · simpa [Mutex.pass, hin] using hstage
    · simpa [Mutex.pass, hin, hout] using hidle
  · intro j hj
    rw [List.length_set]
    unfold Mutex.pass at hj
    split at hj
    · cases hj
      exact (List.getElem?_eq_some_iff.mp hx).1
    · split at hj
      · cases hj
      · exact hbound j hj
  · intro j z hz
    by_cases hidle : c' = s.tracker ∨ x.inside = true
    · exact hexclusive.frame (A := fun c z => Phase.Sound c z) h.sound hx hsound hidle
        (fun z hz _ => sound_outside hz) j z hz
    · have hfree := hlock.mp ((hchange.resolve_left fun hc => hidle (Or.inl hc)).resolve_left
        fun hc => hidle (Or.inr hc))
      by_cases hj : a.1 = j
      · subst hj
        rw [List.getElem?_set_self (List.getElem?_eq_some_iff.mp hx).1] at hz
        cases hz
        exact hsound
      · rw [List.getElem?_set_ne hj] at hz
        refine sound_outside (Bool.eq_false_iff.mpr fun hin => ?_)
        have := (hexclusive j z hz).mp hin
        rw [hfree] at this
        cases this

theorem run (h : Inv s) (hrun : Path Step s as t) (htime : ∀ a ∈ as, a.2.Timely) : Inv t := by
  induction hrun with
  | nil => exact h
  | cons hstep _ ih =>
    obtain ⟨hhead, htail⟩ := List.forall_mem_cons.mp htime
    exact ih (h.step hhead hstep) htail

theorem idle_iff (h : Inv s) : s.tracker.stage = 0 ↔ ∀ x ∈ s.tasks, x.inside = false := by
  obtain ⟨lock, hexclusive, hlock, hbound⟩ := h.exclusive
  rw [hlock]
  constructor
  · rintro rfl x hx
    obtain ⟨i, hi⟩ := List.mem_iff_getElem?.mp hx
    exact Bool.eq_false_iff.mpr fun hin => by cases (hexclusive i x hi).mp hin
  · intro hall
    cases hfree : lock with
    | none => rfl
    | some i =>
      have hlt := hbound i hfree
      have hin := (hexclusive i _ (List.getElem?_eq_getElem hlt)).mpr hfree
      rw [hall _ (List.getElem_mem hlt)] at hin
      cases hin

end Inv

theorem stageOf_idle : c.stageOf = .idle ↔ c.stage = 0 := by
  unfold TrackerState.stageOf
  split
  next hzero => exact ⟨fun _ => hzero, fun _ => rfl⟩
  next hzero =>
    refine ⟨fun hstage => ?_, fun hc => absurd hc hzero⟩
    split at hstage <;> cases hstage

theorem step_keeps_sent (hstep : Step s a t) (hclear : a.2 ≠ .clear) (hsent : s.tracker.sentAt ≠ 0) :
    t.tracker.sentAt = s.tracker.sentAt := by
  obtain ⟨x, -, hmap⟩ := Option.bind_eq_some_iff.mp hstep
  obtain ⟨⟨c', y⟩, hphase, rfl⟩ := Option.map_eq_some_iff.mp hmap
  unfold Phase.step at hphase
  split at hphase
  next =>
    split at hphase
    next =>
      cases hphase
      rfl
    next =>
      cases hphase
      rfl
  next heq => exact absurd heq hclear
  next =>
    cases hphase
    exact if_neg hsent
  next =>
    cases hphase
    rfl
  next =>
    cases hphase
    rfl
  next => cases hphase

theorem run_keeps_sent (hrun : Path Step s bs t) (hclear : ∀ b ∈ bs, b.2 ≠ .clear)
    (hsent : s.tracker.sentAt ≠ 0) : t.tracker.sentAt = s.tracker.sentAt := by
  induction hrun with
  | nil => rfl
  | cons hstep _ ih =>
    obtain ⟨hhead, htail⟩ := List.forall_mem_cons.mp hclear
    have hkept := step_keeps_sent hstep hhead hsent
    exact (ih htail (hkept ▸ hsent)).trans hkept

/-- However the tasks that share a tracker interleave, one at most is with its permit, the tracker is idle
when none is, and with the permit it tells whether the request has been written and when it first
was, which it keeps telling until the next reservation. -/
theorem reservation_lifetime {n : Nat} (hrun : Path Step (.init n) as s)
    (htime : ∀ a ∈ as, a.2.Timely) :
    (∀ (i j : Nat) (x y : Phase), s.tasks[i]? = some x → s.tasks[j]? = some y → x.inside = true →
      y.inside = true → i = j) ∧
    (s.tracker.stageOf = .idle ↔ ∀ x ∈ s.tasks, x.inside = false) ∧
    (∀ first, Phase.holding first ∈ s.tasks →
      s.tracker.stageOf = (if first.isSome then .sent else .pending) ∧
        s.tracker.sent = first.map (· - 1)) ∧
    ∀ bs t, Path Step s bs t → (∀ b ∈ bs, b.2 ≠ .clear) → s.tracker.sent ≠ none →
      t.tracker.sent = s.tracker.sent := by
  have h := (Inv.init n).run hrun htime
  refine ⟨fun i j x y hx hy hin hin' => ?_, stageOf_idle.trans h.idle_iff, fun first hfirst => ?_,
    fun bs t hrest hclear hsent => ?_⟩
  · obtain ⟨lock, hexclusive, -⟩ := h.exclusive
    exact Option.some.inj (((hexclusive i x hx).mp hin).symm.trans ((hexclusive j y hy).mp hin'))
  · obtain ⟨i, hi⟩ := List.mem_iff_getElem?.mp hfirst
    have hsound := h.sound i _ hi
    cases first with
    | none => simp [TrackerState.stageOf, TrackerState.sent, hsound.1, hsound.2]
    | some first =>
      obtain ⟨hstage, hsent, hne⟩ := hsound
      simp [TrackerState.stageOf, TrackerState.sent, hstage, hsent, hne]
  · have hne : s.tracker.sentAt ≠ 0 := fun hzero => hsent (if_pos hzero)
    unfold TrackerState.sent
    rw [run_keeps_sent hrest hclear hne]

theorem path_of_run (h : s.run as = some t) : Path Step s as t := by
  induction as generalizing s with
  | nil =>
    cases h
    exact Path.nil
  | cons a as ih =>
    obtain ⟨u, hstep, hrest⟩ := Option.bind_eq_some_iff.mp h
    exact Path.cons hstep (ih hrest)

/-- One of two tasks reserves the tracker and writes its request twice. -/
theorem rewritten_lifetime : (⟨2, 6⟩ : TrackerState).stageOf = .sent ∧
    (⟨2, 6⟩ : TrackerState).sent = some 5 :=
  have hrun : Path Step (.init 2) [(0, .tryAcquire), (1, .tryAcquire), (0, .clear), (0, .stamp 5),
      (0, .markSent), (0, .stamp 9), (0, .markSent)] ⟨⟨2, 6⟩, [.holding (some 6), .outside]⟩ :=
    path_of_run (by decide)
  (reservation_lifetime hrun (by simp [Access.Timely])).2.2.1 (some 6) (by decide)

end Grammers.Invocations
