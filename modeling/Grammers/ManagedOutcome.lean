import Grammers.ManagedInvariants

namespace Grammers

namespace Managed

open LabelledPath

variable {ε : Type}

/-- Where a call of `stop` can stand. -/
def Phase.ofStop : Phase ε → Bool
  | .publishing | .waiting | .aborting | .ending | .reading _ | .returned .ended _ | .cancelled => true
  | _ => false

/-- A call whose `start` has succeeded, or which needs none. -/
def Phase.pastStart : Phase ε → Bool
  | .idle | .returned .byStart _ => false
  | _ => true

variable (category : ε → InvocationErrorCategory)

namespace Client

structure Inv (c : Client ε) : Prop where
  shared : c.shared.Inv category
  phase : ∀ call, c.shared.PhaseInv category (c.calls call).phase
  stop : ∀ call, (c.calls call).kind = .stop → (c.calls call).phase.ofStop = true

def Step (c : Client ε) (event : LifecycleEvent ε) (c' : Client ε) : Prop :=
  c.step category event = some c'

variable {category} {c c' : Client ε}

theorem inv_new : (new : Client ε).Inv category where
  shared := ⟨rfl, nofun, nofun, nofun, fun _ _ => nofun, nofun, nofun⟩
  phase _ := trivial
  stop _ := nofun

/-- One call has gone on; the others still rely on what they did. -/
theorem inv_put (h : c.Inv category) {call : Nat} {kind : CallKind} {next : Shared ε × Phase ε}
    (hshared : next.1.Inv category) (hgrows : Shared.Grows category c.shared next.1)
    (hphase : next.1.PhaseInv category next.2) (hstop : kind = .stop → next.2.ofStop = true) :
    (c.put call kind next).Inv category := by
  refine ⟨hshared, ?_, ?_⟩
  · intro other
    show next.1.PhaseInv category (Function.update c.calls call ⟨kind, next.2⟩ other).phase
    by_cases hother : other = call
    · subst hother
      rw [Function.update_self]
      exact hphase
    · rw [Function.update_of_ne hother]
      exact hgrows.phaseInv (h.phase other)
  · intro other
    show (Function.update c.calls call ⟨kind, next.2⟩ other).kind = .stop →
      (Function.update c.calls call ⟨kind, next.2⟩ other).phase.ofStop = true
    by_cases hother : other = call
    · subst hother
      rw [Function.update_self]
      exact hstop
    · rw [Function.update_of_ne hother]
      exact h.stop other

theorem begin_inv (h : c.Inv category) {call : Nat} {kind : CallKind} {next : Shared ε × Phase ε}
    (hstep : c.begin call kind next = some c')
    (hnext : next.1.Inv category ∧ Shared.Grows category c.shared next.1 ∧
      next.1.PhaseInv category next.2) (hstop : kind = .stop → next.2.ofStop = true) :
    c'.Inv category ∧ Shared.Grows category c.shared c'.shared := by
  obtain ⟨hshared, hgrows, hphase⟩ := hnext
  unfold begin at hstep
  split at hstep
  · cases hstep
    exact ⟨inv_put h hshared hgrows hphase hstop, hgrows⟩
  · cases hstep

theorem proceed_inv (h : c.Inv category) {call : Nat}
    {move : Shared ε → Phase ε → Option (Shared ε × Phase ε)}
    (hmove : ∀ phase r, c.shared.PhaseInv category phase → move c.shared phase = some r →
      r.1.Inv category ∧ Shared.Grows category c.shared r.1 ∧ r.1.PhaseInv category r.2)
    (hstop : ∀ phase r, move c.shared phase = some r → phase.ofStop = true → r.2.ofStop = true)
    (hstep : c.proceed call move = some c') :
    c'.Inv category ∧ Shared.Grows category c.shared c'.shared := by
  obtain ⟨r, hr, rfl⟩ := Option.map_eq_some_iff.mp hstep
  obtain ⟨hshared, hgrows, hphase⟩ := hmove _ r (h.phase call) hr
  exact ⟨inv_put h hshared hgrows hphase fun hkind => hstop _ r hr (h.stop call hkind), hgrows⟩

theorem advance_ofStop {s : Shared ε} {phase : Phase ε} {r : Shared ε × Phase ε}
    (h : s.advance category phase = some r) (hstop : phase.ofStop = true) : r.2.ofStop = true := by
  cases phase with
  | publishing | aborting | reading _ =>
    cases h
    rfl
  | waiting | ending | cancelled | returned _ _ => cases h
  | idle | started | selecting | connecting _ | terminal _ _ | startup _ _ | connected _ | stop =>
    cases hstop

theorem joined_ofStop {s : Shared ε} {phase : Phase ε} {r : Shared ε × Phase ε}
    (h : s.joined phase = some r) : r.2.ofStop = true := by
  unfold Shared.joined at h
  split at h
  all_goals
    first
    | cases h
    | skip
  all_goals
    split at h
    · cases h
      rfl
    · cases h

theorem joinedInStartup_ofStop {s : Shared ε} {phase : Phase ε} {r : Shared ε × Phase ε}
    (h : s.joinedInStartup phase = some r) (hstop : phase.ofStop = true) :
    r.2.ofStop = true := by
  cases phase with
  | connecting ping => cases hstop
  | _ => cases h

theorem expired_ofStop {s : Shared ε} {phase : Phase ε} {r : Shared ε × Phase ε}
    (h : s.expired phase = some r) : r.2.ofStop = true := by
  unfold Shared.expired at h
  split at h <;> cases h
  rfl

theorem cancel_ofStop {s : Shared ε} {phase : Phase ε} {r : Shared ε × Phase ε}
    (h : s.cancel phase = some r) : r.2.ofStop = true := by
  unfold Shared.cancel at h
  split at h <;> cases h <;> rfl

theorem step_inv (h : c.Inv category) {event : LifecycleEvent ε} (hstep : c.Step category event c') :
    c'.Inv category ∧ Shared.Grows category c.shared c'.shared := by
  cases event with
  | start call env =>
    obtain ⟨hshared, hgrows⟩ := Shared.start_grows h.shared env
    have hstep : c.begin call .start
      ((c.shared.start env).1, .returned .byStart (c.shared.start env).2) = some c' := hstep
    exact begin_inv h hstep ⟨hshared, hgrows, trivial⟩ nofun
  | run call env =>
    obtain ⟨hshared, hgrows⟩ := Shared.start_grows h.shared env
    have hstep : c.begin call .run (runStart c.shared env) = some c' := hstep
    refine begin_inv h hstep ?_ nofun
    have htask := @Shared.start_isSome _ c.shared env
    unfold runStart
    split
    next hstart =>
      rw [hstart] at hshared hgrows htask
      exact ⟨hshared, hgrows, htask rfl⟩
    next hstart =>
      rw [hstart] at hshared hgrows
      exact ⟨hshared, hgrows, trivial⟩
  | stop call =>
    refine begin_inv h hstep (Shared.stop_grows h.shared) fun _ => ?_
    unfold Shared.stop
    split <;> rfl
  | advance call =>
    exact proceed_inv h (fun _ _ => Shared.advance_grows h.shared)
      (fun _ _ => advance_ofStop) hstep
  | joined call =>
    exact proceed_inv h (fun _ _ _ => Shared.joined_grows h.shared)
      (fun _ _ hr _ => joined_ofStop hr) hstep
  | joinedInStartup call =>
    exact proceed_inv h (fun _ _ => Shared.joinedInStartup_grows h.shared)
      (fun _ _ => joinedInStartup_ofStop) hstep
  | expired call =>
    exact proceed_inv h (fun _ _ _ => Shared.expired_grows h.shared)
      (fun _ _ hr _ => expired_ofStop hr) hstep
  | cancel call =>
    exact proceed_inv h (fun _ _ _ => Shared.cancel_grows h.shared)
      (fun _ _ hr _ => cancel_ofStop hr) hstep
  | ping ping result =>
    simp only [Step, step] at hstep
    split at hstep
    next hping =>
      cases hstep
      obtain ⟨hshared, hgrows⟩ := Shared.ping_grows h.shared hping result
      exact ⟨⟨hshared, fun call => hgrows.phaseInv (h.phase call), h.stop⟩, hgrows⟩
    next => cases hstep
  | task event =>
    simp only [Step, step] at hstep
    split at hstep
    next task htask =>
      obtain ⟨s, hs, rfl⟩ := Option.map_eq_some_iff.mp hstep
      obtain ⟨hshared, hgrows⟩ := Shared.taskStep_grows h.shared htask hs
      exact ⟨⟨hshared, fun call => hgrows.phaseInv (h.phase call), h.stop⟩, hgrows⟩
    next => cases hstep

theorem advance_pastStart {s : Shared ε} {phase : Phase ε} {r : Shared ε × Phase ε}
    (hphase : s.PhaseInv category phase) (h : s.advance category phase = some r) :
    r.2.pastStart = true := by
  cases phase with
  | started =>
    obtain ⟨task, htask⟩ := Option.isSome_iff_exists.mp hphase
    simp only [Shared.advance, htask] at h
    cases h
    rfl
  | selecting =>
    cases h
    unfold Shared.startup
    split
    · rfl
    · split <;> rfl
  | connecting ping =>
    simp only [Shared.advance] at h
    split at h <;> cases h <;> rfl
  | terminal ping result =>
    simp only [Shared.advance] at h
    split at h <;> cases h <;> rfl
  | startup ping result =>
    simp only [Shared.advance] at h
    split at h <;> cases h <;> rfl
  | connected result =>
    cases result with
    | ok result =>
      cases h
      rfl
    | error error =>
      simp only [Shared.advance] at h
      split at h <;> cases h <;> rfl
  | stop =>
    cases h
    unfold Shared.stop
    split <;> rfl
  | publishing | aborting | reading _ =>
    cases h
    rfl
  | idle | waiting | ending | cancelled | returned _ _ => cases h

theorem pastStart_of_ofStop {phase : Phase ε} (h : phase.ofStop = true) :
    phase.pastStart = true := by
  cases phase with
  | returned how result =>
    cases how with
    | ended => rfl
    | byStart | overloaded => cases h
  | idle => cases h
  | _ => rfl

theorem joinedInStartup_pastStart {s : Shared ε} {phase : Phase ε} {r : Shared ε × Phase ε}
    (h : s.joinedInStartup phase = some r) : r.2.pastStart = true := by
  unfold Shared.joinedInStartup at h
  split at h
  · split at h <;> cases h
    rfl
  · cases h

theorem begin_pastStart {call other : Nat} {kind : CallKind} {next : Shared ε × Phase ε}
    (hstep : c.begin call kind next = some c') (h : (c.calls other).phase.pastStart = true) :
    (c'.calls other).phase.pastStart = true := by
  unfold begin at hstep
  split at hstep
  next hidle =>
    cases hstep
    have hne : other ≠ call := by
      rintro rfl
      rw [hidle] at h
      cases h
    show (Function.update c.calls call ⟨kind, next.2⟩ other).phase.pastStart = true
    rw [Function.update_of_ne hne]
    exact h
  next => cases hstep

theorem proceed_pastStart {call other : Nat}
    {move : Shared ε → Phase ε → Option (Shared ε × Phase ε)}
    (hmove : ∀ r, move c.shared (c.calls call).phase = some r → r.2.pastStart = true)
    (hstep : c.proceed call move = some c') (h : (c.calls other).phase.pastStart = true) :
    (c'.calls other).phase.pastStart = true := by
  obtain ⟨r, hr, rfl⟩ := Option.map_eq_some_iff.mp hstep
  show (Function.update c.calls call ⟨(c.calls call).kind, r.2⟩ other).phase.pastStart = true
  by_cases hother : other = call
  · subst hother
    rw [Function.update_self]
    exact hmove r hr
  · rw [Function.update_of_ne hother]
    exact h

/-- A call that is past its start neither begins again nor returns what `start` did. -/
theorem step_pastStart (hinv : c.Inv category) {event : LifecycleEvent ε}
    (hstep : c.Step category event c') {call : Nat}
    (h : (c.calls call).phase.pastStart = true) : (c'.calls call).phase.pastStart = true := by
  cases event with
  | start other env => exact begin_pastStart hstep h
  | run other env => exact begin_pastStart hstep h
  | stop other => exact begin_pastStart hstep h
  | advance other => exact proceed_pastStart (fun _ => advance_pastStart (hinv.phase other)) hstep h
  | joined other =>
    exact proceed_pastStart (fun _ hr => pastStart_of_ofStop (joined_ofStop hr)) hstep h
  | joinedInStartup other =>
    exact proceed_pastStart (fun _ => joinedInStartup_pastStart) hstep h
  | expired other =>
    exact proceed_pastStart (fun _ hr => pastStart_of_ofStop (expired_ofStop hr)) hstep h
  | cancel other =>
    exact proceed_pastStart (fun _ hr => pastStart_of_ofStop (cancel_ofStop hr)) hstep h
  | ping ping result =>
    simp only [Step, step] at hstep
    split at hstep <;> cases hstep
    exact h
  | task event =>
    simp only [Step, step] at hstep
    split at hstep
    · obtain ⟨s, -, rfl⟩ := Option.map_eq_some_iff.mp hstep
      exact h
    · cases hstep

theorem path_inv {events : List (LifecycleEvent ε)} (h : c.Inv category)
    (hpath : Path (Step category) c events c') :
    c'.Inv category ∧ Shared.Grows category c.shared c'.shared := by
  induction hpath with
  | nil => exact ⟨h, Shared.Grows.refl⟩
  | cons hstep _ ih =>
    obtain ⟨hnext, hgrows⟩ := step_inv h hstep
    obtain ⟨hend, hrest⟩ := ih hnext
    exact ⟨hend, hgrows.trans hrest⟩

theorem path_pastStart {events : List (LifecycleEvent ε)} (hinv : c.Inv category)
    (hpath : Path (Step category) c events c') {call : Nat}
    (h : (c.calls call).phase.pastStart = true) : (c'.calls call).phase.pastStart = true := by
  induction hpath with
  | nil => exact h
  | cons hstep _ ih => exact ih (step_inv hinv hstep).1 (step_pastStart hinv hstep h)

end Client

/-- All who observe the end of a client see the same one. -/
theorem observers_agree (category : ε → InvocationErrorCategory) {events : List (LifecycleEvent ε)}
    {c : Client ε} (hpath : Path (Client.Step category) Client.new events c) :
    c.shared.spawned ≤ 1 ∧
    (∀ call how result, (c.calls call).kind = .stop →
      (c.calls call).phase = .returned how result → c.shared.completion = some (.final result)) ∧
    ∀ later c', Path (Client.Step category) c later c' →
      (c.shared.stopping = true → c'.shared.spawned = c.shared.spawned) ∧
      (∀ result, c.shared.completion = some (.final result) →
        c'.shared.completion = some (.final result)) ∧
      (∀ error result, c.shared.completion = some (.closedRequest error) →
        c'.shared.completion = some (.final result) → result = .error error ∨
          result = .error .shutdownTimeout ∨
          ∃ cause, c'.shared.ended = some (.error cause) ∧ result = .error cause) ∧
      ∀ call how result, (c.calls call).phase = .started →
        (c'.calls call).phase = .returned how result →
        (∃ cause, result = .error (.connectivity cause) ∧ category cause = .overloaded) ∨
          c'.shared.completion = some (.final result) := by
  obtain ⟨hinv, -⟩ := Client.path_inv (Client.inv_new (ε := ε)) hpath
  refine ⟨?_, ?_, ?_⟩
  · rw [hinv.shared.one]
    split <;> omega
  · intro call how result hkind hreturned
    have hphase := hinv.phase call
    have hstop := hinv.stop call hkind
    rw [hreturned] at hphase hstop
    cases how with
    | ended => exact hphase
    | byStart | overloaded => cases hstop
  · intro later c' hlater
    obtain ⟨hinv', hgrows⟩ := Client.path_inv hinv hlater
    refine ⟨fun hstopping => (hgrows.stopping hstopping).2, hgrows.final, ?_, ?_⟩
    · intro error result herror hresult
      rcases hgrows.closed error herror with hclosed | ⟨resolved, hresolved, hsettles⟩
      · rw [hclosed] at hresult
        cases hresult
      · rw [hresolved] at hresult
        cases hresult
        exact hsettles
    · intro call how result hstarted hreturned
      have hpast := Client.path_pastStart hinv hlater
        (show (c.calls call).phase.pastStart = true by rw [hstarted]; rfl)
      have hphase := hinv'.phase call
      rw [hreturned] at hpast hphase
      cases how with
      | byStart => cases hpast
      | overloaded => exact Or.inl (Shared.of_isOverloaded hphase)
      | ended => exact Or.inr hphase

/-- A client is started and stopped; its runner ends by itself. -/
def startedAndStopped : List (LifecycleEvent InvocationErrorCategory) :=
  [.start 0 ⟨false, true, true⟩, .stop 1, .task (.ends true), .task .reads, .task .joins,
    .task .joinReads, .joined 1, .advance 1]

theorem observers_agree_stopped : ∃ c, Path (Client.Step id) Client.new startedAndStopped c ∧
    c.shared.spawned ≤ 1 ∧ (c.calls 1).phase = .returned .ended (.ok ()) ∧
    c.shared.completion = some (.final (.ok ())) := by
  obtain ⟨c, hpath, hkind, hreturned⟩ : ∃ c, Path (Client.Step id) Client.new startedAndStopped c ∧
      (c.calls 1).kind = .stop ∧ (c.calls 1).phase = .returned .ended (.ok ()) :=
    ⟨_, Path.cons rfl (Path.cons rfl (Path.cons rfl (Path.cons rfl (Path.cons rfl (Path.cons rfl
      (Path.cons rfl (Path.cons rfl Path.nil))))))), rfl, rfl⟩
  obtain ⟨hspawned, hstop, -⟩ := observers_agree id hpath
  exact ⟨c, hpath, hspawned, hreturned, hstop 1 _ _ hkind hreturned⟩

/-- A run that begins after the end is refused by its start, and one whose startup is refused for
overload returns that error, though the runner has ended by then. -/
theorem run_returns_another_result :
    (∃ c c', Path (Client.Step id) Client.new startedAndStopped c ∧
      c.shared.ended = some (.ok ()) ∧ c.shared.completion = some (.final (.ok ())) ∧
      c.Step id (.run 2 ⟨true, true, true⟩) c' ∧
      c'.calls 2 = ⟨.run, .returned .byStart (.error .alreadyStopped)⟩) ∧
    ∃ c, Path (Client.Step id) Client.new [.run 0 ⟨false, true, true⟩, .advance 0, .advance 0,
        .ping 0 (.error .overloaded), .advance 0, .task (.ends true), .advance 0, .advance 0] c ∧
      c.shared.ended = some (.ok ()) ∧ c.shared.completion = some (.final (.ok ())) ∧
      c.calls 0 = ⟨.run, .returned .overloaded (.error (.connectivity .overloaded))⟩ := by
  refine ⟨⟨_, _, Path.cons rfl (Path.cons rfl (Path.cons rfl (Path.cons rfl (Path.cons rfl
    (Path.cons rfl (Path.cons rfl (Path.cons rfl Path.nil))))))), rfl, rfl, rfl, rfl⟩, ?_⟩
  exact ⟨_, Path.cons rfl (Path.cons rfl (Path.cons rfl (Path.cons rfl (Path.cons rfl (Path.cons rfl
    (Path.cons rfl (Path.cons rfl Path.nil))))))), rfl, rfl, rfl⟩

end Managed

end Grammers
