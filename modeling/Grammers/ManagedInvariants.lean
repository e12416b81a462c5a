import Grammers.ManagedLifecycle

namespace Grammers

namespace Managed

variable {ε : Type} (category : ε → InvocationErrorCategory)

/-- Startup checks that all ended with local admission overload. -/
def AllOverloaded (pings : List (Option (Except ε Unit))) : Prop :=
  ∀ p ∈ pings, ∃ error, p = some (.error error) ∧ category error = .overloaded

namespace Shared

variable (s : Shared ε)

def ended : Option (Completion ε) := s.task.bind RunningTask.ended

/-- The record is final. -/
def Final : Prop := ∃ result, s.completion = some (.final result)

/-- What can take the place of a recorded startup error. -/
def Settles (error : LifecycleError ε) (result : Completion ε) : Prop :=
  result = .error error ∨ result = .error .shutdownTimeout ∨
    ∃ cause, s.ended = some (.error cause) ∧ result = .error cause

structure TaskInv (task : RunningTask ε) : Prop where
  publishing : ∀ result, task.phase = .publishing result → s.Final
  finished : ∀ result, task.phase = .finished (.ok result) → s.Final
  died : ∀ error, task.phase = .finished (.error error) → task.ended = some (.error error.completion)
  reading : ∀ result, task.join = .reading result → s.Final
  resolved : ∀ result, task.join = .resolved result → s.Final
  running : task.phase = .running → task.ended = none

structure Inv : Prop where
  one : s.spawned = if s.task.isSome then 1 else 0
  task : ∀ task, s.task = some task → s.TaskInv task
  connection : ∀ ping, s.connection = some ping → ping + 1 = s.pings.length
  replaced : AllOverloaded category s.pings.dropLast
  unconnected : s.stopping = false → s.connection = none → AllOverloaded category s.pings
  closed : ∀ error, s.completion = some (.closedRequest error) → ∃ cause,
    error = .connectivity cause ∧ category cause = .closed ∧
      s.pings.getLast? = some (some (.error cause))
  final : ∀ result, s.completion = some (.final result) → isOverloaded category result = false

/-- An error of a startup, that is published unless something else has happened. -/
def Failure (result : Completion ε) : Prop :=
  ∀ error, result = .error error → s.Final ∨ s.stopping = true ∨ ∃ cause,
    error = .connectivity cause ∧
      (category cause = .overloaded ∨ s.pings.getLast? = some (some (.error cause)))

def PhaseInv : Phase ε → Prop
  | .started | .selecting => s.task.isSome
  | .connecting ping => ping < s.pings.length
  | .terminal ping _ => ping < s.pings.length ∧ s.Final
  | .startup ping result => ping < s.pings.length ∧ s.Failure category result ∧
    ∀ error, result = .error (.connectivity error) → category error = .overloaded →
      s.pings[ping]? = some (some (.error error))
  | .connected result => s.Failure category result
  | .reading _ => s.Final
  | .returned .ended result => s.completion = some (.final result)
  | .returned .overloaded result => isOverloaded category result = true
  | _ => True

/-- What every step keeps of what clones share. -/
structure Grows (s s' : Shared ε) : Prop where
  final : ∀ result, s.completion = some (.final result) → s'.completion = some (.final result)
  stopping : s.stopping = true → s'.stopping = true ∧ s'.spawned = s.spawned
  length : s.pings.length ≤ s'.pings.length
  pings : ∀ (ping : Nat) result, s.pings[ping]? = some (some result) →
    s'.pings[ping]? = some (some result)
  last : ∀ error, category error ≠ .overloaded → s.pings.getLast? = some (some (.error error)) →
    s'.pings.getLast? = some (some (.error error))
  task : s.task.isSome → s'.task.isSome
  ended : ∀ result, s.ended = some result → s'.ended = some result
  closed : ∀ error, s.completion = some (.closedRequest error) →
    s'.completion = some (.closedRequest error) ∨
      ∃ result, s'.completion = some (.final result) ∧ s'.Settles error result

variable {category} {s} {s' : Shared ε}

theorem Grows.refl : Grows category s s where
  final _ h := h
  stopping h := ⟨h, rfl⟩
  length := Nat.le_refl _
  pings _ _ h := h
  last _ _ h := h
  task := id
  ended _ h := h
  closed _ h := Or.inl h

theorem Grows.trans {s'' : Shared ε} (h : Grows category s s') (h' : Grows category s' s'') :
    Grows category s s'' where
  final result hresult := h'.final result (h.final result hresult)
  stopping hstopping :=
    ⟨(h'.stopping (h.stopping hstopping).1).1,
      (h'.stopping (h.stopping hstopping).1).2.trans (h.stopping hstopping).2⟩
  length := Nat.le_trans h.length h'.length
  pings ping result hping := h'.pings ping result (h.pings ping result hping)
  last error hcategory hlast := h'.last error hcategory (h.last error hcategory hlast)
  task htask := h'.task (h.task htask)
  ended result hended := h'.ended result (h.ended result hended)
  closed error herror := by
    rcases h.closed error herror with hclosed | ⟨result, hresult, hsettles⟩
    · exact h'.closed error hclosed
    · refine Or.inr ⟨result, h'.final result hresult, ?_⟩
      rcases hsettles with hsettles | hsettles | ⟨cause, hended, hcause⟩
      · exact Or.inl hsettles
      · exact Or.inr (Or.inl hsettles)
      · exact Or.inr (Or.inr ⟨cause, h'.ended _ hended, hcause⟩)

theorem Grows.toFinal (h : Grows category s s') (hfinal : s.Final) : s'.Final := by
  obtain ⟨result, hresult⟩ := hfinal
  exact ⟨result, h.final result hresult⟩

theorem Grows.failure (h : Grows category s s') {result : Completion ε}
    (hfailure : s.Failure category result) : s'.Failure category result := by
  intro error herror
  rcases hfailure error herror with hfinal | hstopping | ⟨cause, hcause, hping⟩
  · exact Or.inl (h.toFinal hfinal)
  · exact Or.inr (Or.inl (h.stopping hstopping).1)
  · refine Or.inr (Or.inr ⟨cause, hcause, ?_⟩)
    by_cases hoverloaded : category cause = .overloaded
    · exact Or.inl hoverloaded
    · exact Or.inr (h.last cause hoverloaded (hping.resolve_left hoverloaded))

/-- What a call relies on stays true while others go on. -/
theorem Grows.phaseInv (h : Grows category s s') {phase : Phase ε}
    (hphase : s.PhaseInv category phase) : s'.PhaseInv category phase := by
  cases phase with
  | connecting ping => exact Nat.lt_of_lt_of_le hphase h.length
  | terminal ping result =>
    obtain ⟨hping, hfinal⟩ := hphase
    exact ⟨Nat.lt_of_lt_of_le hping h.length, h.toFinal hfinal⟩
  | startup ping result =>
    obtain ⟨hping, hfailure, hoverloaded⟩ := hphase
    exact ⟨Nat.lt_of_lt_of_le hping h.length, h.failure hfailure,
      fun error herror hcategory => h.pings _ _ (hoverloaded error herror hcategory)⟩
  | connected result => exact h.failure hphase
  | reading result => exact h.toFinal hphase
  | returned how result =>
    cases how with
    | byStart => trivial
    | overloaded => exact hphase
    | ended => exact h.final result hphase
  | started | selecting => exact h.task hphase
  | idle | stop | publishing | waiting | aborting | ending | cancelled =>
    trivial

/-! The record of how the client ended. -/

theorem final_publish (s : Shared ε) (result : Completion ε) : (s.publish result).Final := by
  unfold publish Managed.publish Final
  split
  · exact ⟨_, rfl⟩
  · split <;> exact ⟨_, rfl⟩
  · exact ⟨_, rfl⟩

theorem publish_of_final (h : s.Final) (result : Completion ε) : s.publish result = s := by
  obtain ⟨resolved, hresolved⟩ := h
  cases s
  simp_all [publish, Managed.publish]

theorem borrow_of_final (h : s.Final) (result : Completion ε) :
    s.completion = some (.final (borrow s.completion result)) := by
  obtain ⟨resolved, hresolved⟩ := h
  rw [hresolved]
  rfl

theorem TaskInv.mono {task : RunningTask ε} (h : s.TaskInv task) (hfinal : s.Final → s'.Final) :
    s'.TaskInv task where
  publishing result hphase := hfinal (h.publishing result hphase)
  finished result hphase := hfinal (h.finished result hphase)
  died := h.died
  reading result hjoin := hfinal (h.reading result hjoin)
  resolved result hjoin := hfinal (h.resolved result hjoin)
  running := h.running

theorem isOverloaded_of_closed {cause : ε} (h : category cause = .closed) :
    isOverloaded category (.error (.connectivity cause)) = false := by
  simp [isOverloaded, isCategory, h]

theorem publish_inv (hs : s.Inv category) {result : Completion ε}
    (hoverloaded : isOverloaded category result = false) : (s.publish result).Inv category := by
  have hfinal := s.final_publish result
  refine ⟨hs.one, fun task htask => (hs.task task htask).mono fun _ => hfinal, hs.connection,
    hs.replaced, hs.unconnected, ?_, ?_⟩
  · intro error herror
    obtain ⟨resolved, hresolved⟩ := hfinal
    rw [hresolved] at herror
    cases herror
  · intro resolved hresolved
    cases hcompletion : s.completion with
    | none =>
      simp only [publish, Managed.publish, hcompletion, Option.some.injEq,
        CompletionRecord.final.injEq] at hresolved
      exact hresolved ▸ hoverloaded
    | some record =>
      cases record with
      | final earlier =>
        rw [publish_of_final ⟨earlier, hcompletion⟩] at hresolved
        exact hs.final resolved hresolved
      | closedRequest error =>
        obtain ⟨cause, rfl, hclosed, -⟩ := hs.closed error hcompletion
        cases result with
        | ok _ =>
          simp only [publish, Managed.publish, hcompletion, Option.some.injEq,
            CompletionRecord.final.injEq] at hresolved
          exact hresolved ▸ isOverloaded_of_closed hclosed
        | error other =>
          simp only [publish, Managed.publish, hcompletion, Option.some.injEq,
            CompletionRecord.final.injEq] at hresolved
          exact hresolved ▸ hoverloaded

/-- A result that may replace a recorded startup error is published. -/
theorem publish_grows {result : Completion ε}
    (hsettles : ∀ error cause, s.completion = some (.closedRequest error) →
      result = .error cause → s.Settles error (.error cause)) :
    Grows category s (s.publish result) := by
  refine ⟨?_, fun h => ⟨h, rfl⟩, Nat.le_refl _, fun _ _ h => h, fun _ _ h => h, id, fun _ h => h, ?_⟩
  · intro resolved hresolved
    rw [publish_of_final ⟨resolved, hresolved⟩]
    exact hresolved
  · intro error herror
    refine Or.inr ?_
    cases result with
    | ok _ => exact ⟨.error error, by simp [publish, Managed.publish, herror], Or.inl rfl⟩
    | error cause =>
      exact ⟨.error cause, by simp [publish, Managed.publish, herror],
        hsettles error cause herror rfl⟩

/-- What another publication would change is final already. -/
theorem publish_unchanged (hs : s.Inv category) (hfinal : s.Final) (result : Completion ε) :
    (s.publish result).Inv category ∧ Grows category s (s.publish result) := by
  rw [publish_of_final hfinal]
  exact ⟨hs, Grows.refl⟩

theorem publish_ok (hs : s.Inv category) :
    (s.publish (.ok ())).Inv category ∧ Grows category s (s.publish (.ok ())) :=
  ⟨publish_inv hs rfl, publish_grows fun _ _ _ h => nomatch h⟩

theorem publish_timeout (hs : s.Inv category) :
    (s.publish (.error .shutdownTimeout)).Inv category ∧
      Grows category s (s.publish (.error .shutdownTimeout)) := by
  refine ⟨publish_inv hs rfl, publish_grows ?_⟩
  intro error cause _ heq
  cases heq
  exact Or.inr (Or.inl rfl)

theorem not_mem_of_allOverloaded {pings : List (Option (Except ε Unit))}
    (h : AllOverloaded category pings) {cause : ε} (hcause : category cause ≠ .overloaded) :
    pings.getLast? ≠ some (some (.error cause)) := by
  intro hlast
  obtain ⟨error, heq, hcategory⟩ := h _ (List.mem_of_getLast? hlast)
  cases heq
  exact hcause hcategory

/-! The steps of the calls. -/

theorem start_isSome {env : StartEnv} (h : (s.start env).2 = .ok ()) :
    (s.start env).1.task.isSome := by
  unfold start at h ⊢
  split at h
  · cases h
  next hstopping =>
  rw [if_neg hstopping]
  split at h
  next htask =>
    rw [if_pos htask]
    exact htask
  next htask =>
  rw [if_neg htask]
  split at h
  · cases h
  next hruntime =>
  rw [if_neg hruntime]
  split at h
  · cases h
  next hrunner =>
  rw [if_neg hrunner]
  split at h
  · cases h
  next hactivates =>
    rw [if_neg hactivates]
    rfl

theorem start_grows (hs : s.Inv category) (env : StartEnv) :
    (s.start env).1.Inv category ∧ Grows category s (s.start env).1 := by
  unfold start
  split
  · exact ⟨hs, Grows.refl⟩
  next hstopping =>
  split
  · exact ⟨hs, Grows.refl⟩
  next htask =>
  split
  · exact ⟨hs, Grows.refl⟩
  split
  · exact ⟨hs, Grows.refl⟩
  split
  · exact ⟨⟨hs.one, fun task htask => (hs.task task htask).mono id, hs.connection, hs.replaced,
      hs.unconnected, hs.closed, hs.final⟩, fun _ h => h, fun h => ⟨h, rfl⟩, Nat.le_refl _,
      fun _ _ h => h, fun _ _ h => h, id, fun _ h => h, fun _ h => Or.inl h⟩
  · have hnone : s.task = none := by simpa using htask
    have hrunning : s.stopping = false := by
      simp only [Bool.or_eq_true, not_or] at hstopping
      simpa using hstopping.1
    have hone := hs.one
    rw [hnone] at hone
    refine ⟨⟨?_, ?_, hs.connection, hs.replaced, hs.unconnected, hs.closed, hs.final⟩,
      fun _ h => h, ?_, Nat.le_refl _, fun _ _ h => h, fun _ _ h => h, fun _ => rfl, ?_,
      fun _ h => Or.inl h⟩
    · show s.spawned + 1 = 1
      rw [hone]
      rfl
    · rintro task ⟨⟩
      exact ⟨nofun, nofun, nofun, nofun, nofun, fun _ => rfl⟩
    · intro h
      rw [hrunning] at h
      cases h
    · intro result h
      rw [ended, hnone] at h
      cases h

/-- A check is begun only after all before it were refused for overload. -/
theorem connect_grows (hs : s.Inv category) (hstopping : s.stopping = false) :
    s.connect.1.Inv category ∧ Grows category s s.connect.1 ∧
      s.connect.2 < s.connect.1.pings.length := by
  unfold connect
  cases hconnection : s.connection with
  | some ping =>
    have hping := hs.connection ping hconnection
    exact ⟨hs, Grows.refl, by show ping < s.pings.length; omega⟩
  | none =>
    have hall := hs.unconnected hstopping hconnection
    refine ⟨⟨hs.one, fun task htask => (hs.task task htask).mono id, ?_, ?_, ?_, ?_, hs.final⟩,
      ⟨fun _ h => h, fun h => ⟨h, rfl⟩, by simp, ?_, ?_, id, fun _ h => h, fun _ h => Or.inl h⟩, by simp⟩
    · rintro ping ⟨⟩
      simp
    · simpa using hall
    · rintro - ⟨⟩
    · intro error herror
      obtain ⟨cause, -, hclosed, hlast⟩ := hs.closed error herror
      exact absurd hlast (not_mem_of_allOverloaded hall (by rw [hclosed]; exact nofun))
    · intro ping result h
      have hlt := (List.getElem?_eq_some_iff.mp h).1
      rw [List.getElem?_append_left hlt, h]
    · intro error hcategory hlast
      exact absurd hlast (not_mem_of_allOverloaded hall hcategory)

theorem startup_grows (hs : s.Inv category) (htask : s.task.isSome) : s.startup.1.Inv category ∧
    Grows category s s.startup.1 ∧ s.startup.1.PhaseInv category s.startup.2 := by
  unfold startup
  split
  next hstopping => exact ⟨hs, Grows.refl, fun error _ => Or.inr (Or.inl hstopping)⟩
  next hstopping =>
    obtain ⟨task, htask⟩ := Option.isSome_iff_exists.mp htask
    rw [htask]
    exact connect_grows hs (by simpa using hstopping)

theorem stop_grows (hs : s.Inv category) : (s.stop).1.Inv category ∧
    Grows category s (s.stop).1 ∧ (s.stop).1.PhaseInv category (s.stop).2 := by
  refine ⟨⟨hs.one, fun task htask => (hs.task task htask).mono id, nofun, hs.replaced, nofun,
    hs.closed, hs.final⟩, ⟨fun _ h => h, fun _ => ⟨rfl, rfl⟩, Nat.le_refl _, fun _ _ h => h,
    fun _ _ h => h, id, fun _ h => h, fun _ h => Or.inl h⟩, ?_⟩
  unfold stop
  split <;> trivial

/-- A failed startup is recorded or published, if nothing else has ended the client by then. -/
theorem failed_grows (hs : s.Inv category) {error : LifecycleError ε}
    (hfailure : s.Failure category (.error error))
    (hoverloaded : isCategory category .overloaded error = false) :
    (s.failed category error).Inv category ∧ Grows category s (s.failed category error) := by
  unfold failed
  split
  · exact ⟨hs, Grows.refl⟩
  next hstopping =>
  by_cases hfinal : s.Final
  · split
    · obtain ⟨resolved, hresolved⟩ := hfinal
      rw [hresolved]
      exact ⟨hs, Grows.refl⟩
    · exact publish_unchanged hs hfinal _
  obtain ⟨cause, rfl, hcause⟩ :=
    ((hfailure error rfl).resolve_left hfinal).resolve_left hstopping
  have hnot : category cause ≠ .overloaded := by simpa [isCategory] using hoverloaded
  have hlast := hcause.resolve_left hnot
  split
  next hclosed =>
    have hclosed : category cause = .closed := by simpa [isCategory] using hclosed
    cases hcompletion : s.completion with
    | some record => exact ⟨hs, Grows.refl⟩
    | none =>
      refine ⟨⟨hs.one, ?_, hs.connection, hs.replaced, hs.unconnected, ?_, nofun⟩,
        ⟨?_, fun h => ⟨h, rfl⟩, Nat.le_refl _, fun _ _ h => h, fun _ _ h => h, id, fun _ h => h, ?_⟩⟩
      · exact fun task htask => (hs.task task htask).mono fun h => absurd h hfinal
      · rintro other ⟨⟩
        exact ⟨cause, rfl, hclosed, hlast⟩
      · intro result h
        rw [hcompletion] at h
        cases h
      · intro other h
        rw [hcompletion] at h
        cases h
  next hclosed =>
    refine ⟨publish_inv hs hoverloaded, publish_grows ?_⟩
    intro other otherCause hrecorded heq
    obtain ⟨first, -, hfirst, hping⟩ := hs.closed other hrecorded
    rw [hlast] at hping
    cases hping
    exact absurd (by simpa [isCategory] using hfirst) hclosed

/-- The error of a check is its own, or everything later was not begun. -/
theorem failure_of_ping (hs : s.Inv category) {ping : Nat} {cause : ε}
    (hping : s.pings[ping]? = some (some (.error cause))) :
    s.Failure category (.error (.connectivity cause)) := by
  rintro error ⟨⟩
  refine Or.inr (Or.inr ⟨cause, rfl, ?_⟩)
  obtain ⟨hlt, hget⟩ := List.getElem?_eq_some_iff.mp hping
  by_cases hlast : ping + 1 = s.pings.length
  · refine Or.inr ?_
    rw [List.getLast?_eq_getElem?, ← hlast, Nat.add_sub_cancel, hping]
  · have hmem : some (.error cause) ∈ s.pings.dropLast := by
      rw [← hget, ← List.getElem_dropLast (by simp; omega)]
      exact List.getElem_mem _
    obtain ⟨error, heq, hcategory⟩ := hs.replaced _ hmem
    cases heq
    exact Or.inl hcategory

theorem reset_grows (hs : s.Inv category) {ping : Nat} {cause : ε}
    (hping : s.pings[ping]? = some (some (.error cause))) (hcause : category cause = .overloaded)
    (hconnection : s.connection = some ping) :
    Inv category { s with connection := none } ∧ Grows category s { s with connection := none } := by
  refine ⟨⟨hs.one, fun task htask => (hs.task task htask).mono id, nofun, hs.replaced, ?_, hs.closed,
    hs.final⟩, ⟨fun _ h => h, fun h => ⟨h, rfl⟩, Nat.le_refl _, fun _ _ h => h, fun _ _ h => h, id,
    fun _ h => h, fun _ h => Or.inl h⟩⟩
  intro _ _ p hp
  have hlength := hs.connection ping hconnection
  have hlast : s.pings.getLast? = some (some (.error cause)) := by
    rw [List.getLast?_eq_getElem?, ← hlength, Nat.add_sub_cancel, hping]
  obtain ⟨earlier, hearlier⟩ := List.getLast?_eq_some_iff.mp hlast
  have hp : p ∈ earlier ++ [some (.error cause)] := hearlier ▸ hp
  rcases List.mem_append.mp hp with hp | hp
  · exact hs.replaced p (by rw [hearlier, List.dropLast_concat]; exact hp)
  · obtain rfl := List.mem_singleton.mp hp
    exact ⟨cause, rfl, hcause⟩

theorem of_isOverloaded {result : Completion ε} (h : isOverloaded category result = true) :
    ∃ cause, result = .error (.connectivity cause) ∧ category cause = .overloaded := by
  match result with
  | .ok () => cases h
  | .error (.connectivity cause) => exact ⟨cause, rfl, by simpa [isOverloaded, isCategory] using h⟩
  | .error .missingRuntime | .error .alreadyStopped | .error .runnerPanicked
  | .error .runnerCancelled | .error .shutdownTimeout => cases h

/-- A call goes on by itself. -/
theorem advance_grows (hs : s.Inv category) {phase : Phase ε} {r : Shared ε × Phase ε}
    (hphase : s.PhaseInv category phase) (h : s.advance category phase = some r) :
    r.1.Inv category ∧ Grows category s r.1 ∧ r.1.PhaseInv category r.2 := by
  cases phase with
  | started =>
    simp only [advance] at h
    split at h
    next task htask =>
      cases h
      exact ⟨hs, Grows.refl, hphase⟩
    next =>
      cases h
      exact ⟨hs, Grows.refl, trivial⟩
  | selecting =>
    cases h
    exact startup_grows hs hphase
  | connecting ping =>
    simp only [advance] at h
    split at h
    next hping =>
      cases h
      exact ⟨hs, Grows.refl, hphase, nofun, nofun⟩
    next cause hping =>
      cases h
      refine ⟨hs, Grows.refl, hphase, failure_of_ping hs hping, ?_⟩
      rintro error ⟨⟩ -
      exact hping
    next => cases h
  | terminal ping result =>
    obtain ⟨hping, hfinal⟩ := hphase
    have hborrow := borrow_of_final hfinal result
    simp only [advance] at h
    split at h
    next =>
      cases h
      exact ⟨hs, Grows.refl, hping, fun _ _ => Or.inl hfinal, nofun⟩
    next error herror =>
      cases h
      refine ⟨hs, Grows.refl, hping, fun _ _ => Or.inl hfinal, ?_⟩
      rintro cause ⟨⟩ hcause
      rw [herror] at hborrow
      have hnot := hs.final _ hborrow
      simp [isOverloaded, isCategory, hcause] at hnot
  | startup ping result =>
    obtain ⟨hping, hfailure, hoverloaded⟩ := hphase
    simp only [advance] at h
    split at h
    next hreset =>
      cases h
      obtain ⟨cause, rfl, hcause⟩ := of_isOverloaded hreset.1
      obtain ⟨hinv, hgrows⟩ := reset_grows hs (hoverloaded cause rfl hcause) hcause hreset.2
      exact ⟨hinv, hgrows, hgrows.failure hfailure⟩
    next =>
      cases h
      exact ⟨hs, Grows.refl, hfailure⟩
  | connected result =>
    match result, hphase with
    | .ok (), _ =>
      cases h
      exact ⟨hs, Grows.refl, trivial⟩
    | .error error, hfailure =>
      simp only [advance] at h
      split at h
      next hoverloaded =>
        cases h
        exact ⟨hs, Grows.refl, hoverloaded⟩
      next hoverloaded =>
        cases h
        obtain ⟨hinv, hgrows⟩ := failed_grows hs hfailure (by simpa using hoverloaded)
        exact ⟨hinv, hgrows, trivial⟩
  | stop =>
    cases h
    exact stop_grows hs
  | publishing =>
    cases h
    obtain ⟨hinv, hgrows⟩ := publish_ok hs
    exact ⟨hinv, hgrows, final_publish _ _⟩
  | aborting =>
    cases h
    exact ⟨hs, Grows.refl, trivial⟩
  | reading result =>
    cases h
    exact ⟨hs, Grows.refl, borrow_of_final hphase result⟩
  | idle | waiting | ending | returned _ _ | cancelled => cases h

theorem final_of_resolved (hs : s.Inv category) {result : Completion ε}
    (h : s.task.map RunningTask.join = some (.resolved result)) : s.Final := by
  obtain ⟨task, htask, hjoin⟩ := Option.map_eq_some_iff.mp h
  exact (hs.task task htask).resolved result hjoin

theorem joined_grows (hs : s.Inv category) {phase : Phase ε} {r : Shared ε × Phase ε}
    (h : s.joined phase = some r) :
    r.1.Inv category ∧ Grows category s r.1 ∧ r.1.PhaseInv category r.2 := by
  unfold joined at h
  split at h
  all_goals
    first
    | cases h
    | skip
  all_goals
    split at h
    next result hresult =>
      cases h
      obtain ⟨hinv, hgrows⟩ := publish_unchanged hs (final_of_resolved hs hresult) result
      exact ⟨hinv, hgrows, final_publish _ _⟩
    next => cases h

theorem joinedInStartup_grows (hs : s.Inv category) {phase : Phase ε} {r : Shared ε × Phase ε}
    (hphase : s.PhaseInv category phase) (h : s.joinedInStartup phase = some r) :
    r.1.Inv category ∧ Grows category s r.1 ∧ r.1.PhaseInv category r.2 := by
  unfold joinedInStartup at h
  split at h
  next ping =>
    split at h
    next result hresult =>
      cases h
      obtain ⟨hinv, hgrows⟩ := publish_unchanged hs (final_of_resolved hs hresult) result
      exact ⟨hinv, hgrows, hphase, final_publish _ _⟩
    next => cases h
  next => cases h

theorem expired_grows (hs : s.Inv category) {phase : Phase ε} {r : Shared ε × Phase ε}
    (h : s.expired phase = some r) :
    r.1.Inv category ∧ Grows category s r.1 ∧ r.1.PhaseInv category r.2 := by
  unfold expired at h
  split at h
  next =>
    cases h
    obtain ⟨hinv, hgrows⟩ := publish_timeout hs
    exact ⟨hinv, hgrows, trivial⟩
  next => cases h

theorem cancel_grows (hs : s.Inv category) {phase : Phase ε} {r : Shared ε × Phase ε}
    (h : s.cancel phase = some r) :
    r.1.Inv category ∧ Grows category s r.1 ∧ r.1.PhaseInv category r.2 := by
  unfold cancel at h
  split at h
  all_goals
    cases h
    try exact ⟨hs, Grows.refl, trivial⟩

/-! The steps of the startup checks and of the task. -/

theorem ping_grows (hs : s.Inv category) {ping : Nat} (hping : s.pings[ping]? = some none)
    (result : Except ε Unit) :
    Inv category { s with pings := s.pings.set ping (some result) } ∧
      Grows category s { s with pings := s.pings.set ping (some result) } := by
  obtain ⟨hlt, hget⟩ := List.getElem?_eq_some_iff.mp hping
  have hnot : ∀ pings : List (Option (Except ε Unit)), AllOverloaded category pings →
      none ∉ pings := by
    intro pings hall hmem
    obtain ⟨error, heq, -⟩ := hall none hmem
    cases heq
  have hlast : ping + 1 = s.pings.length := by
    by_contra hne
    refine hnot _ hs.replaced ?_
    rw [← hget, ← List.getElem_dropLast (by simp; omega)]
    exact List.getElem_mem _
  have hpending : s.pings.getLast? = some none := by
    rw [List.getLast?_eq_getElem?, ← hlast, Nat.add_sub_cancel, hping]
  have hdrop : (s.pings.set ping (some result)).dropLast = s.pings.dropLast := by
    rw [List.dropLast_eq_take, List.dropLast_eq_take, List.length_set, List.take_set_of_le]
    omega
  refine ⟨⟨hs.one, fun task htask => (hs.task task htask).mono id, ?_, ?_, ?_, ?_, hs.final⟩,
    ⟨fun _ h => h, fun h => ⟨h, rfl⟩, by simp, ?_, ?_, id, fun _ h => h, fun _ h => Or.inl h⟩⟩
  · intro other hother
    rw [List.length_set]
    exact hs.connection other hother
  · rw [hdrop]
    exact hs.replaced
  · intro hstopping hconnection
    exact absurd (hget ▸ List.getElem_mem hlt) (hnot _ (hs.unconnected hstopping hconnection))
  · intro error herror
    obtain ⟨cause, -, -, hclosed⟩ := hs.closed error herror
    rw [hpending] at hclosed
    cases hclosed
  · intro other earlier hother
    rw [List.getElem?_set_ne, hother]
    rintro rfl
    rw [hping] at hother
    cases hother
  · intro error _ herror
    rw [hpending] at herror
    cases herror

/-- The task and what waits for it, after a step that may have published a result. -/
theorem inv_of_task (hs : s.Inv category) {task task' : RunningTask ε} (htask : s.task = some task)
    (htask' : s.TaskInv task') : Inv category { s with task := some task' } := by
  have hone := hs.one
  rw [htask] at hone
  refine ⟨hone, ?_, hs.connection, hs.replaced, hs.unconnected, hs.closed, hs.final⟩
  rintro _ ⟨⟩
  exact htask'.mono id

theorem grows_of_task {task task' : RunningTask ε} (htask : s.task = some task)
    (hended : ∀ result, task.ended = some result → task'.ended = some result) :
    Grows category s { s with task := some task' } := by
  refine ⟨fun _ h => h, fun h => ⟨h, rfl⟩, Nat.le_refl _, fun _ _ h => h, fun _ _ h => h,
    fun _ => rfl, ?_, fun _ h => Or.inl h⟩
  intro result h
  rw [ended, htask] at h
  exact hended result h

theorem taskStep_grows (hs : s.Inv category) {task : RunningTask ε} (htask : s.task = some task)
    {event : TaskEvent} (h : s.taskStep task event = some s') :
    s'.Inv category ∧ Grows category s s' := by
  have hinv := hs.task task htask
  cases event with
  | ends ok =>
    simp only [taskStep] at h
    split at h
    next hphase =>
      cases h
      obtain ⟨result, hresult⟩ : ∃ result, result =
        if ok then (.ok () : Completion ε) else .error .runnerPanicked := ⟨_, rfl⟩
      rw [← hresult]
      have hoverloaded : isOverloaded category result = false := by
        rw [hresult]
        cases ok <;> rfl
      have hfinal := s.final_publish result
      refine ⟨inv_of_task (publish_inv hs hoverloaded) htask ⟨fun _ _ => hfinal, nofun, nofun,
        fun _ _ => hfinal, fun _ _ => hfinal, nofun⟩, ?_⟩
      have hended : Grows category s { s with
          task := some { task with phase := .publishing result, ended := some result } } := by
        refine grows_of_task htask fun earlier h => ?_
        rw [hinv.running hphase] at h
        cases h
      refine hended.trans (publish_grows ?_)
      rintro error cause - rfl
      exact Or.inr (Or.inr ⟨cause, rfl, rfl⟩)
    next => cases h
  | reads =>
    simp only [taskStep] at h
    split at h
    next result hphase =>
      cases h
      have hfinal := hinv.publishing result hphase
      exact ⟨inv_of_task hs htask ⟨nofun, fun _ _ => hfinal, nofun, hinv.reading, hinv.resolved, nofun⟩,
        grows_of_task htask fun _ h => h⟩
    next => cases h
  | dies error =>
    simp only [taskStep] at h
    split at h
    next hphase =>
      cases h
      refine ⟨inv_of_task hs htask ⟨nofun, nofun, ?_, hinv.reading, hinv.resolved, nofun⟩,
        grows_of_task htask ?_⟩
      · rintro _ ⟨⟩
        rfl
      · intro result h
        rw [hinv.running hphase] at h
        cases h
    next => cases h
  | joins =>
    simp only [taskStep] at h
    split at h
    next output hphase hjoin =>
      cases h
      have hfinal := s.final_publish (awaited output)
      have hpublish : (s.publish (awaited output)).Inv category ∧
          Grows category s (s.publish (awaited output)) := by
        cases output with
        | ok result => exact publish_unchanged hs (hinv.finished result hphase) result
        | error error =>
          refine ⟨publish_inv hs (by cases error <;> rfl), publish_grows ?_⟩
          rintro _ _ - ⟨⟩
          refine Or.inr (Or.inr ⟨_, ?_, rfl⟩)
          rw [ended, htask]
          exact hinv.died error hphase
      obtain ⟨hpublished, hgrows⟩ := hpublish
      exact ⟨inv_of_task hpublished htask ⟨fun _ _ => hfinal, fun _ _ => hfinal, hinv.died,
        fun _ _ => hfinal, nofun, hinv.running⟩,
        hgrows.trans (grows_of_task htask fun _ h => h)⟩
    next => cases h
  | joinReads =>
    simp only [taskStep] at h
    split at h
    next result hjoin =>
      cases h
      have hfinal := hinv.reading result hjoin
      exact ⟨inv_of_task hs htask ⟨hinv.publishing, hinv.finished, hinv.died, nofun, fun _ _ => hfinal,
        hinv.running⟩, grows_of_task htask fun _ h => h⟩
    next => cases h

end Shared

end Managed

end Grammers
