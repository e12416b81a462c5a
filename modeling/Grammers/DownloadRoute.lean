import Grammers.DownloadedFile

namespace Grammers.Files

open LabelledPath

variable {ε ρ : Type}

def fileMigrateError : Int := 303

structure RpcError where
  code : Int
  name : String
  value : Option Nat
  deriving DecidableEq

/-- The failures of an invocation, as far as a download tells them apart. -/
inductive InvocationError (ε : Type)
  | shared (error : InvocationError ε)
  | rpc (error : RpcError)
  | invalidDc
  | other (error : ε)

def InvocationError.rootCause : InvocationError ε → InvocationError ε
  | .shared error => error.rootCause
  | error => error

/-- The datacenter a migration names, if it is a positive 32-bit number. -/
def migrationDc (value : Option Nat) : Except (InvocationError ε) Int :=
  match value.filter fun value => decide (0 < value) && decide (value ≤ maxInt32) with
  | some value => .ok value
  | none => .error .invalidDc

/-- Where the fetch of one chunk is in its loop, between two uses of the shared route. -/
inductive Phase (ε ρ : Type)
  | loading
  | invoking (dc : Int)
  | rechecking (dc : Int) (error : InvocationError ε)
  | authorizing (dc : Int)
  | migrating (dc migratedDc : Int) (error : InvocationError ε)
  | returned (result : Except (InvocationError ε) ρ)

/-- The route shared by all chunks, and the variables of the fetch of one of them. The
invocations it makes are recorded besides. -/
structure Fetch (ε ρ : Type) where
  route : Int
  phase : Phase ε ρ
  remainingRecoveries : Nat
  authorizedDcs : List Int
  invocations : List Int

def Fetch.start (route : Int) : Fetch ε ρ := ⟨route, .loading, 8, [], []⟩

/-- What can happen next: a use of the route, an answer, or other chunks set the route. -/
inductive FetchEvent (ε ρ : Type)
  | load
  | answer (response : Except (InvocationError ε) ρ)
  | recheck
  | authorized (result : Except (InvocationError ε) Unit)
  | compareExchange
  | others (route : Int)

def Fetch.returning (s : Fetch ε ρ) (result : Except (InvocationError ε) ρ) : Fetch ε ρ :=
  { s with phase := .returned result }

/-- A failed invocation is recovered from, while recoveries remain, or returned. -/
def Fetch.failed (s : Fetch ε ρ) (dc : Int) (error : InvocationError ε) : Fetch ε ρ :=
  match error.rootCause with
  | .rpc rpc =>
    if rpc.name = "AUTH_KEY_UNREGISTERED" then
      if s.remainingRecoveries = 0 then s.returning (.error error)
      else
        { s with
          remainingRecoveries := s.remainingRecoveries - 1
          phase := .rechecking dc error }
    else if rpc.code = fileMigrateError then
      match migrationDc rpc.value with
      | .error error => s.returning (.error error)
      | .ok migratedDc =>
        if s.remainingRecoveries = 0 then s.returning (.error error)
        else
          { s with
            remainingRecoveries := s.remainingRecoveries - 1
            phase := .migrating dc migratedDc error }
    else s.returning (.error error)
  | _ => s.returning (.error error)

def Fetch.step (s : Fetch ε ρ) (event : FetchEvent ε ρ) : Option (Fetch ε ρ) :=
  match event with
  | .others route => some { s with route := route }
  | .load =>
    match s.phase with
    | .loading =>
      some { s with phase := .invoking s.route, invocations := s.invocations ++ [s.route] }
    | _ => none
  | .answer response =>
    match s.phase with
    | .invoking dc =>
      match response with
      | .ok response => some (s.returning (.ok response))
      | .error error => some (s.failed dc error)
    | _ => none
  | .recheck =>
    match s.phase with
    | .rechecking dc error =>
      if s.route ≠ dc then some { s with phase := .loading }
      else if dc ∈ s.authorizedDcs then some (s.returning (.error error))
      else some { s with phase := .authorizing dc, authorizedDcs := s.authorizedDcs ++ [dc] }
    | _ => none
  | .authorized result =>
    match s.phase with
    | .authorizing _ =>
      match result with
      | .ok () => some { s with phase := .loading }
      | .error error => some (s.returning (.error error))
    | _ => none
  | .compareExchange =>
    match s.phase with
    | .migrating dc migratedDc error =>
      if s.route = dc then
        let s := { s with route := migratedDc }
        if migratedDc = dc then some (s.returning (.error error))
        else some { s with phase := .loading }
      else some { s with phase := .loading }
    | _ => none

def Fetch.Steps (s : Fetch ε ρ) (event : FetchEvent ε ρ) (s' : Fetch ε ρ) : Prop :=
  s.step event = some s'

/-- The invocations a phase leaves room for, besides one for each recovery that remains. -/
def Phase.made : Phase ε ρ → Nat
  | .invoking _ => 9
  | .returned _ => 9
  | _ => 8

/-- The route is only migrated from the datacenter of the last request, which named another. -/
def Phase.Named (invocations : List Int) : Phase ε ρ → Prop
  | .invoking dc => invocations.getLast? = some dc
  | .migrating dc migratedDc error => invocations.getLast? = some dc ∧
      ∃ rpc, error.rootCause = .rpc rpc ∧ rpc.code = fileMigrateError ∧
        migrationDc (ε := ε) rpc.value = .ok migratedDc
  | _ => True

structure Fetch.Inv (s : Fetch ε ρ) : Prop where
  budget : s.invocations.length + s.remainingRecoveries ≤ s.phase.made
  authorizedOnce : s.authorizedDcs.Nodup
  named : s.phase.Named s.invocations

variable {s s' : Fetch ε ρ} {event : FetchEvent ε ρ}

theorem Fetch.Inv.returning (h : s.Inv) (result : Except (InvocationError ε) ρ) :
    (s.returning result).Inv := by
  refine ⟨h.budget.trans ?_, h.authorizedOnce, trivial⟩
  cases s.phase with
  | invoking dc => exact le_rfl
  | returned result => exact le_rfl
  | loading => exact Nat.le_succ 8
  | rechecking dc error => exact Nat.le_succ 8
  | authorizing dc => exact Nat.le_succ 8
  | migrating dc migratedDc error => exact Nat.le_succ 8

theorem Fetch.Inv.failed {dc : Int} (h : s.Inv) (hp : s.phase = .invoking dc)
    (error : InvocationError ε) : (s.failed dc error).Inv := by
  have hb := h.budget
  have hn := h.named
  rw [hp] at hb hn
  simp only [Phase.made] at hb
  unfold Fetch.failed
  split
  next rpc hroot =>
    split
    next =>
      split
      next => exact h.returning _
      next hr =>
        refine ⟨?_, h.authorizedOnce, trivial⟩
        show s.invocations.length + (s.remainingRecoveries - 1) ≤ 8
        omega
    next =>
      split
      next hcode =>
        split
        next => exact h.returning _
        next migratedDc hm =>
          split
          next => exact h.returning _
          next hr =>
            refine ⟨?_, h.authorizedOnce, hn, rpc, hroot, hcode, hm⟩
            show s.invocations.length + (s.remainingRecoveries - 1) ≤ 8
            omega
      next => exact h.returning _
  next => exact h.returning _

theorem Fetch.Inv.step (h : s.Inv) (hs : Fetch.Steps s event s') : s'.Inv := by
  have hb := h.budget
  have hreset : s.phase.made = 8 → ({ s with phase := .loading } : Fetch ε ρ).Inv := fun hm =>
    ⟨hb.trans hm.le, h.authorizedOnce, trivial⟩
  unfold Fetch.Steps Fetch.step at hs
  cases event with
  | others route =>
    obtain rfl := Option.some.inj hs
    exact ⟨h.budget, h.authorizedOnce, h.named⟩
  | load =>
    simp only at hs
    split at hs
    next hp =>
      obtain rfl := Option.some.inj hs
      rw [hp] at hb
      simp only [Phase.made] at hb
      refine ⟨?_, h.authorizedOnce, List.getLast?_concat⟩
      show (s.invocations ++ [s.route]).length + s.remainingRecoveries ≤ 9
      rw [List.length_append, List.length_singleton]
      omega
    next => simp at hs
  | answer response =>
    simp only at hs
    split at hs
    next dc hp =>
      split at hs
      next =>
        obtain rfl := Option.some.inj hs
        exact h.returning _
      next error =>
        obtain rfl := Option.some.inj hs
        exact h.failed hp error
    next => simp at hs
  | recheck =>
    simp only at hs
    split at hs
    next dc error hp =>
      have hm : s.phase.made = 8 := by rw [hp]; rfl
      split at hs
      next =>
        obtain rfl := Option.some.inj hs
        exact hreset hm
      next =>
        split at hs
        next =>
          obtain rfl := Option.some.inj hs
          exact h.returning _
        next hnew =>
          obtain rfl := Option.some.inj hs
          refine ⟨hb.trans hm.le, ?_, trivial⟩
          show (s.authorizedDcs ++ [dc]).Nodup
          exact List.nodup_append.mpr ⟨h.authorizedOnce, List.nodup_singleton dc, fun a ha b hb' => by
            obtain rfl := List.mem_singleton.mp hb'
            exact fun he => hnew (he ▸ ha)⟩
    next => simp at hs
  | authorized result =>
    simp only at hs
    split at hs
    next dc hp =>
      split at hs
      next =>
        obtain rfl := Option.some.inj hs
        exact hreset (by rw [hp]; rfl)
      next =>
        obtain rfl := Option.some.inj hs
        exact h.returning _
    next => simp at hs
  | compareExchange =>
    simp only at hs
    split at hs
    next dc migratedDc error hp =>
      have hm : s.phase.made = 8 := by rw [hp]; rfl
      split at hs
      next =>
        split at hs
        next =>
          obtain rfl := Option.some.inj hs
          exact ⟨(hb.trans hm.le).trans (Nat.le_succ 8), h.authorizedOnce, trivial⟩
        next =>
          obtain rfl := Option.some.inj hs
          exact ⟨hb.trans hm.le, h.authorizedOnce, trivial⟩
      next =>
        obtain rfl := Option.some.inj hs
        exact hreset hm
    next => simp at hs

theorem Fetch.Inv.of_path {route : Int} {events : List (FetchEvent ε ρ)}
    (h : Path Fetch.Steps (.start route) events s) : s.Inv :=
  h.invariant (fun _ _ _ hi hs => hi.step hs) ⟨by simp [Fetch.start, Phase.made],
    List.nodup_nil, trivial⟩

/-- An own step of a fetch writes the route only where its failed request has left it. -/
theorem Fetch.step_route (hs : Fetch.Steps s event s') (hown : ∀ route, event ≠ .others route) :
    s'.route = s.route ∨ ∃ dc migratedDc error, s.phase = .migrating dc migratedDc error ∧
      s.route = dc ∧ s'.route = migratedDc := by
  have hfailed : ∀ (dc : Int) (error : InvocationError ε), (s.failed dc error).route = s.route := by
    intro dc error
    unfold Fetch.failed
    split
    next =>
      split
      next =>
        split
        next => rfl
        next => rfl
      next =>
        split
        next =>
          split
          next => rfl
          next =>
            split
            next => rfl
            next => rfl
        next => rfl
    next => rfl
  unfold Fetch.Steps Fetch.step at hs
  cases event with
  | others route => exact absurd rfl (hown route)
  | load =>
    simp only at hs
    split at hs
    next => exact Or.inl (Option.some.inj hs ▸ rfl)
    next => simp at hs
  | answer response =>
    simp only at hs
    split at hs
    next =>
      split at hs
      next => exact Or.inl (Option.some.inj hs ▸ rfl)
      next => exact Or.inl (Option.some.inj hs ▸ hfailed _ _)
    next => simp at hs
  | recheck =>
    simp only at hs
    split at hs
    next =>
      split at hs
      next => exact Or.inl (Option.some.inj hs ▸ rfl)
      next =>
        split at hs
        next => exact Or.inl (Option.some.inj hs ▸ rfl)
        next => exact Or.inl (Option.some.inj hs ▸ rfl)
    next => simp at hs
  | authorized result =>
    simp only at hs
    split at hs
    next =>
      split at hs
      next => exact Or.inl (Option.some.inj hs ▸ rfl)
      next => exact Or.inl (Option.some.inj hs ▸ rfl)
    next => simp at hs
  | compareExchange =>
    simp only at hs
    split at hs
    next dc migratedDc error hp =>
      split at hs
      next hroute =>
        refine Or.inr ⟨dc, migratedDc, error, hp, hroute, ?_⟩
        split at hs
        next => exact Option.some.inj hs ▸ rfl
        next => exact Option.some.inj hs ▸ rfl
      next => exact Or.inl (Option.some.inj hs ▸ rfl)
    next => simp at hs

/-- The fetch of a chunk, whatever the server answers and other chunks do to the route: at
most nine invocations, no datacenter authorized twice, and no write to the route but from
the datacenter of its last request, while it is still there, to the one its answer names. -/
structure FetchBounded (s : Fetch ε ρ) : Prop where
  invocations : s.invocations.length ≤ 9
  authorizedOnce : s.authorizedDcs.Nodup
  writes : ∀ (event : FetchEvent ε ρ) (s' : Fetch ε ρ), (∀ route, event ≠ .others route) →
    s.step event = some s' → s'.route = s.route ∨
      ∃ dc migratedDc error rpc, s.phase = .migrating dc migratedDc error ∧
        s.invocations.getLast? = some dc ∧ error.rootCause = .rpc rpc ∧
        rpc.code = fileMigrateError ∧ migrationDc (ε := ε) rpc.value = .ok migratedDc ∧
        s.route = dc ∧ s'.route = migratedDc

theorem Fetch.Inv.bounded (h : s.Inv) : FetchBounded s := by
  refine ⟨?_, h.authorizedOnce, fun event s' hown hs => ?_⟩
  · have hb := h.budget
    have hmade : s.phase.made ≤ 9 := by
      unfold Phase.made
      split
      next => exact le_rfl
      next => exact le_rfl
      next => exact Nat.le_succ 8
    omega
  · rcases Fetch.step_route hs hown with hsame | ⟨dc, migratedDc, error, hp, hroute, hnew⟩
    · exact Or.inl hsame
    · have hn := h.named
      rw [hp] at hn
      obtain ⟨hlast, rpc, hroot, hcode, hm⟩ := hn
      exact Or.inr ⟨dc, migratedDc, error, rpc, hp, hlast, hroot, hcode, hm, hroute, hnew⟩

/-- A parallel download reassembles the file, and the fetch of each chunk is bounded and
only writes the shared route in the place of the datacenter its own request failed at. -/
theorem parallel_download (ε ρ : Type) (file : List UInt8) (size workers : Nat) (route : Int) :
    Reassembles ε file size workers ∧
      ∀ (events : List (FetchEvent ε ρ)) (s : Fetch ε ρ),
        Path Fetch.Steps (.start route) events s → FetchBounded s :=
  ⟨download_reassembles ε file size workers, fun _ _ h => (Fetch.Inv.of_path h).bounded⟩

end Grammers.Files
