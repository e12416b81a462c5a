import Grammers.PoolPlaces

namespace Grammers.SenderPool

open Census LabelledPath

variable {target : Rpc → Int32} {s t : State} {as bs : List Action} {a : Action}
  {parked failed : Bool} {i : Nat}

/-- What a task does by itself, as opposed to what the network, an abort or a panic does to it. -/
def TaskAction.own : TaskAction → Bool
  | .take | .close | .drain | .hangUp => true
  | .answer _ | .fail | .kill | .panic => false

def Action.own : Action → Bool
  | .task _ a => a.own
  | _ => false

namespace Connection

variable {c c' : Connection} {a : TaskAction} {out : List Rpc} {reachable : Bool}

/-- The most steps that the task has left to take by itself. -/
def remaining (c : Connection) : Nat :=
  c.queue.length + match c.task with
    | .running | .draining => 1
    | .failing => 2
    | .finished _ => 0

theorem step_remaining (h : c.step reachable a = some (c', out)) (hown : a.own = true) :
    c'.remaining < c.remaining := by
  cases a with
  | take =>
    simp only [step] at h
    split at h
    next rpc queue hrunning hqueue =>
      cases h
      simp [remaining, hrunning, hqueue]
    next => cases h
  | close =>
    simp only [step, Option.ite_none_right_eq_some] at h
    obtain ⟨hfailing, h⟩ := h
    cases h
    simp [remaining, hfailing]
  | drain =>
    simp only [step] at h
    split at h
    next rpc queue hdraining hqueue =>
      cases h
      simp [remaining, hdraining, hqueue]
    next hdraining hqueue =>
      cases h
      simp [remaining, hdraining]
    next => cases h
  | hangUp =>
    simp only [step, Option.ite_none_right_eq_some] at h
    obtain ⟨⟨hrunning, -⟩, h⟩ := h
    cases h
    simp [remaining, hrunning]
  | answer => cases hown
  | fail => cases hown
  | kill => cases hown
  | panic => cases hown

/-- A task whose queue has no sender left can go on by itself until it has ended. -/
theorem exists_own_step (h : c.isFinished = false) :
    ∃ a : TaskAction, a.own = true ∧ (c.step false a).isSome := by
  cases htask : c.task with
  | running =>
    cases hqueue : c.queue with
    | nil => exact ⟨.hangUp, rfl, by simp [step, htask, hqueue]⟩
    | cons rpc queue => exact ⟨.take, rfl, by simp [step, htask, hqueue]⟩
  | failing => exact ⟨.close, rfl, by simp [step, htask]⟩
  | draining =>
    cases hqueue : c.queue with
    | nil => exact ⟨.drain, rfl, by simp [step, htask, hqueue]⟩
    | cons rpc queue => exact ⟨.drain, rfl, by simp [step, htask, hqueue]⟩
  | finished => simp [isFinished, htask] at h

end Connection

/-- The runner has nothing left to do but to join its connections, and no handle is in the middle of a
call. -/
structure State.Ended (s : State) : Prop where
  runner : ∃ failed todo, s.runner = .stopping failed todo ∧ todo ⊆ [.joinConnections]
  calls : s.calls = []

def State.remaining (s : State) : Nat := s.tasks.foldr (fun c n => c.remaining + n) 0

theorem sum_set_lt {α : Type} {f : α → Nat} {xs : List α} {x y : α} (hx : xs[i]? = some x)
    (hlt : f y < f x) :
    (xs.set i y).foldr (fun z n => f z + n) 0 < xs.foldr (fun z n => f z + n) 0 := by
  induction xs generalizing i with
  | nil => simp at hx
  | cons z xs ih =>
    cases i with
    | zero =>
      obtain rfl : z = x := by simpa using hx
      simp only [List.set_cons_zero, List.foldr_cons]
      omega
    | succ i =>
      have := ih (i := i) (by simpa using hx)
      simp only [List.set_cons_succ, List.foldr_cons]
      omega

theorem own_step (hstep : Step target s a t) (hown : a.own = true) :
    (s.Ended → t.Ended) ∧ t.remaining < s.remaining := by
  cases a with
  | task i b =>
    simp only [Step, step] at hstep
    split at hstep
    next c hc =>
      split at hstep
      next c' out hb =>
        cases hstep
        exact ⟨fun h => ⟨h.runner, h.calls⟩, sum_set_lt hc (Connection.step_remaining hb hown)⟩
      next => cases hstep
    next => cases hstep
  | _ => cases hown

theorem own_run (hrun : Path (Step target) s as t) (hown : ∀ a ∈ as, a.own = true) :
    (s.Ended → t.Ended) ∧ as.length + t.remaining ≤ s.remaining := by
  induction hrun with
  | nil => exact ⟨id, Nat.le_of_eq (Nat.zero_add _)⟩
  | cons hstep _ ih =>
    obtain ⟨hhead, htail⟩ := List.forall_mem_cons.mp hown
    obtain ⟨hended, hlt⟩ := own_step hstep hhead
    obtain ⟨hended', hle⟩ := ih htail
    refine ⟨fun h => hended' (hended h), ?_⟩
    rw [List.length_cons]
    omega

namespace Inv

/-- A runner that has ended has left no sender of a queue, and no call of its own. -/
theorem ended (h : Inv target [] s) (hs : s.Ended) :
    (∀ tx, s.reachable tx = false) ∧ s.queue = [] ∧ s.pending = [] ∧ s.runner.rpcs = [] := by
  obtain ⟨failed, todo, hrunner, hsub⟩ := hs.runner
  have hdone := h.staged failed todo hrunner
  have hpast : ∀ c : Cleanup, c ≠ .joinConnections → c ∉ todo :=
    fun c hne hc => hne (List.mem_singleton.mp (hsub hc))
  have hentries := h.routes.stopped (hdone.routes (hpast _ (by decide)))
  have hconnections := hdone.unlinked (hpast _ (by decide))
  refine ⟨fun tx => ?_, (hdone.drained (hpast _ (by decide))).2, hdone.cleared (hpast _ (by decide)),
    by rw [hrunner]; rfl⟩
  rw [State.reachable, hentries, hconnections, hs.calls]
  rfl

theorem quiet_finished (h : Inv target [] s) (hs : s.Ended)
    (hquiet : ∀ a : Action, a.own = true → SenderPool.step target s a = none) :
    ∀ c ∈ s.tasks, c.isFinished = true := by
  intro c hc
  refine Bool.of_not_eq_false fun hfin => ?_
  obtain ⟨i, hi⟩ := List.mem_iff_getElem?.mp hc
  obtain ⟨b, hown, hsome⟩ := Connection.exists_own_step hfin
  obtain ⟨⟨c', out⟩, hb⟩ := Option.isSome_iff_exists.mp hsome
  have hnone := hquiet (.task i b) hown
  rw [← (h.ended hs).1 i] at hb
  simp [SenderPool.step, hi, hb] at hnone

theorem resolved_perm (h : Inv target [] s) (hs : s.Ended)
    (hfin : ∀ c ∈ s.tasks, c.isFinished = true) : s.resolved.Perm s.issued := by
  obtain ⟨-, hqueue, hpending, hrunner⟩ := h.ended hs
  have htasks : ∀ r, Census.held Connection.rpcs r s.tasks = 0 := by
    refine fun r => Nat.eq_zero_of_not_pos fun hpos => ?_
    obtain ⟨c, hc, hr⟩ := held_pos.mp hpos
    have hwf := (h.tasks c hc).wf
    have hended := hfin c hc
    have hsender : c.sender = [] := hwf.failed fun hrunning => by
      simp [Connection.isFinished, hrunning] at hended
    rw [Connection.rpcs, hwf.ended hended, hsender] at hr
    cases hr
  refine List.perm_iff_count.mpr fun r => ?_
  have hcount := h.counted r
  simp only [State.held, hs.calls, hqueue, hpending, hrunner, htasks r, held_nil,
    List.count_nil] at hcount
  omega

end Inv

/-- When the runner of a pool only has its connections to join and the calls of its handles have been
sent off, its tasks take no more steps by themselves than are left to them, and when none can take
another each call that was ever issued has been resolved, once. -/
theorem ended_pool_settles (hrun : Path (Step target) (.init parked) as s) (hs : s.Ended)
    (hrest : Path (Step target) s bs t) (hown : ∀ a ∈ bs, a.own = true) :
    bs.length ≤ s.remaining ∧
      ((∀ a : Action, a.own = true → step target t a = none) → t.resolved.Perm t.issued) := by
  obtain ⟨hended, hle⟩ := own_run hrest hown
  have h := ((Inv.reach hrun).run hrest).1
  exact ⟨by omega, fun hquiet => h.resolved_perm (hended hs) (h.quiet_finished (hended hs) hquiet)⟩

/-- The pool of `served` after `quit`, when only its connection is left to join. -/
def quitting : State :=
  { served with
    routes := ⟨[], [], true, false⟩
    queueClosed := true
    runner := .stopping false [.joinConnections]
    connections := []
    setups := [⟨2, some .connected, true, true⟩] }

/-- The pool of `quitting` after its connection has ended. -/
def settled : State :=
  { quitting with
    tasks := [⟨2, [], [], .finished false, false, false⟩]
    resolved := [1, 3, 5] }

theorem quitting_settles : 3 ≤ quitting.remaining ∧
    ((∀ a : Action, a.own = true → step (fun _ => 2) settled a = none) →
      settled.resolved.Perm settled.issued) :=
  have hrun : Path (Step fun _ => 2) (.init false)
      (serving ++ [.quit, .sendQuit, .receive] ++ List.replicate 8 .cleanup) quitting :=
    path_of_run (by decide)
  have hrest : Path (Step fun _ => 2) quitting [.task 0 .take, .task 0 .take, .task 0 .hangUp]
      settled := path_of_run (by decide)
  ended_pool_settles hrun ⟨⟨false, _, rfl, List.Subset.refl _⟩, rfl⟩ hrest (by decide)

end Grammers.SenderPool
