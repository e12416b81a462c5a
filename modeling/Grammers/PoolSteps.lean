import Grammers.PoolOps
import Mathlib.Data.List.Infix

namespace Grammers.SenderPool

open Census LabelledPath SwapRemove

variable {target : Rpc → Int32} {s t : State} {hand more : List Rpc} {dcId : Int32} {rpc : Rpc}
  {i tx : Nat} {stopping queueClosed failed : Bool} {queue : List Request}
  {pending : List PendingConnection} {connections : List ConnectionInfo} {step : Cleanup}
  {todo : List Cleanup} {runner : Runner}

theorem tail_mem (h : step :: todo ∈ shutdown.tails ++ dropped.tails) :
    todo ∈ shutdown.tails ++ dropped.tails := by
  simp only [List.mem_append, List.mem_tails] at h ⊢
  exact h.imp (List.suffix_cons step todo).trans (List.suffix_cons step todo).trans

/-- The queue is closed before it is drained. -/
theorem closeQueue_before (h : Cleanup.drainQueue :: todo ∈ shutdown.tails ++ dropped.tails) :
    Cleanup.closeQueue ∉ Cleanup.drainQueue :: todo := by
  have hall : ∀ todo ∈ shutdown.tails ++ dropped.tails, todo.head? = some Cleanup.drainQueue →
      Cleanup.closeQueue ∉ todo := by decide
  exact hall _ h rfl

theorem Progress.begin (h : todo = shutdown ∨ todo = dropped) :
    Progress stopping queueClosed queue pending connections todo := by
  have hall : ∀ step : Cleanup, step ∈ [Cleanup.closeRoutes, .closeQueue, .drainQueue,
      .clearPending, .clearConnections] → step ∈ todo := by
    rcases h with rfl | rfl <;> decide
  refine ⟨by rcases h with rfl | rfl <;> decide, fun hnot => ?_, fun hnot => ?_, fun hnot => ?_,
    fun hnot => ?_, fun hnot => ?_⟩
  all_goals exact absurd (hall _ (by decide)) hnot

/-- What a step of the end leaves behind. -/
def Done (stopping queueClosed : Bool) (queue : List Request) (pending : List PendingConnection)
    (connections : List ConnectionInfo) : Cleanup → Prop
  | .closeRoutes => stopping = true
  | .closeQueue => queueClosed = true
  | .drainQueue => queue = []
  | .clearConnections => connections = []
  | .clearPending => pending = []
  | .abortSetups | .joinSetups | .abortConnections | .joinConnections => True

theorem Progress.next
    (h : Progress stopping queueClosed queue pending connections (step :: todo))
    (hdone : Done stopping queueClosed queue pending connections step) :
    Progress stopping queueClosed queue pending connections todo := by
  have before : ∀ cleanup, cleanup ∉ todo → cleanup ∉ step :: todo ∨ step = cleanup := by
    intro cleanup hnot
    by_cases heq : step = cleanup
    · exact Or.inr heq
    · exact Or.inl fun hmem => (List.mem_cons.mp hmem).elim (fun h => heq h.symm) hnot
  refine ⟨tail_mem h.order, fun hnot => ?_, fun hnot => ?_, fun hnot => ?_, fun hnot => ?_,
    fun hnot => ?_⟩
  · rcases before _ hnot with hnot | rfl
    · exact h.routes hnot
    · exact hdone
  · rcases before _ hnot with hnot | rfl
    · exact h.closed hnot
    · exact hdone
  · rcases before _ hnot with hnot | rfl
    · exact h.drained hnot
    · exact ⟨h.closed (closeQueue_before h.order), hdone⟩
  · rcases before _ hnot with hnot | rfl
    · exact h.cleared hnot
    · exact hdone
  · rcases before _ hnot with hnot | rfl
    · exact h.unlinked hnot
    · exact hdone

namespace Inv

/-- The runner goes on to something else, with the calls it has at hand. -/
theorem setRunner (h : Inv target hand s) (hs : s.runner.active = true)
    (hactive : runner.active = true) (hsound : runner.Sound target s.tasks)
    (hcount : ∀ r, runner.rpcs.count r + more.count r = s.runner.rpcs.count r + hand.count r) :
    Inv target more { s with runner := runner } :=
  { h with
    runner := hsound
    waited := fun _ => h.waited hs
    opened := fun _ => h.opened hs
    staged := fun failed todo hrunner => by
      rw [show runner = .stopping failed todo from hrunner] at hactive
      cases hactive
    counted := fun r => by
      have := h.counted r
      have := hcount r
      simp only [State.held] at *
      omega }

theorem halt (h : Inv target hand s) (hempty : s.runner.rpcs = [])
    (htodo : todo = shutdown ∨ todo = dropped) (failed : Bool) :
    Inv target hand { s with runner := .stopping failed todo } :=
  { h with
    runner := trivial
    waited := fun hactive => by cases hactive
    opened := fun hactive => by cases hactive
    staged := fun failed' todo' hrunner => by
      cases hrunner
      exact .begin htodo
    counted := fun r => by
      have := h.counted r
      have hnone : (Runner.stopping failed todo).rpcs = [] := rfl
      simp only [State.held, hempty, hnone] at *
      omega }

/-- Whether the end is one after a failure is another matter. -/
theorem refail (h : Inv target hand s) (hrunner : s.runner = .stopping failed todo)
    (failed' : Bool) : Inv target hand { s with runner := .stopping failed' todo } :=
  { h with
    runner := trivial
    waited := fun hactive => by cases hactive
    opened := fun hactive => by cases hactive
    staged := fun failed'' todo' heq => by
      cases heq
      exact h.staged failed todo hrunner
    counted := fun r => by
      have := h.counted r
      simp only [State.held, hrunner, Runner.rpcs] at *
      exact this }

theorem takeRequest {q : Request} (h : Inv target hand s) (hqueue : s.queue = q :: queue)
    (hwaiting : s.runner = .waiting) :
    Inv target (q.rpcs ++ hand) { s with queue := queue } ∧ q.Sound target ∧
      ∀ dc, s.departing.count dc + (q :: queue).countP (Request.disconnects dc) ≤
        RouteCache.total dc s.routes.disconnecting := by
  have hall := h.queue
  have hbegun := h.begun
  rw [hqueue] at hall hbegun
  refine ⟨{ h with
    queue := fun p hp => hall p (List.mem_cons_of_mem _ hp)
    begun := fun dc => ?_
    staged := fun failed todo hrunner => ?_
    counted := fun r => ?_ }, hall q List.mem_cons_self, hbegun⟩
  · have := h.counted r
    simp only [State.held, hqueue, held_cons, List.count_append] at *
    omega
  · refine Nat.le_trans (Nat.add_le_add_left ?_ _) (hbegun dc)
    exact (List.sublist_cons_self q queue).countP_le
  · rw [show s.runner = .stopping failed todo from hrunner] at hwaiting
    cases hwaiting

theorem recordCompletion (h : Inv target hand s) :
    Inv target hand s.recordCompletion ∧ Kept s s.recordCompletion := by
  refine ⟨{ h with
    connections := fun k hk => h.connections k (List.mem_filter.mp hk).1
    entries := fun e he => h.entries e (List.mem_filter.mp he).1
    routes := h.routes.filter _
    staged := fun failed todo hrunner => ?_ }, Kept.of_same rfl rfl rfl⟩
  have hs := h.staged failed todo hrunner
  exact { hs with
    unlinked := fun hnot => by
      simp only [State.recordCompletion, hs.unlinked hnot]
      rfl }

theorem cancelSetup_same (s : State) (dcId : Int32) : ∃ pending setups resolved,
    s.cancelSetup dcId =
      { s with pending := pending, setups := setups, resolved := resolved } := by
  unfold State.cancelSetup
  split
  next => exact ⟨_, _, _, rfl⟩
  next => exact ⟨_, _, _, rfl⟩

theorem processDisconnect (h : Inv target hand s) (hwaiting : s.runner = .waiting)
    (hbegun : ∀ dc, s.departing.count dc +
      (Request.disconnect dcId :: s.queue).countP (Request.disconnects dc) ≤
        RouteCache.total dc s.routes.disconnecting) :
    Inv target hand (s.processDisconnect dcId) ∧ Kept s (s.processDisconnect dcId) := by
  obtain ⟨hcancelled, hkept⟩ := h.cancelSetup (by rw [hwaiting]; rfl) dcId
  obtain ⟨pending, setups, resolved, heq⟩ := cancelSetup_same s dcId
  unfold State.processDisconnect
  rw [heq] at hcancelled hkept ⊢
  simp only
  have habort : ∀ (j : Nat) (d : Connection), (if s.connections.any fun k =>
      k.dcId = dcId && k.tx = j then d.abort else d).dcId = d.dcId ∧
      (if s.connections.any fun k => k.dcId = dcId && k.tx = j then d.abort else d).rpcs =
        d.rpcs ∧ (d.Sound target → (if s.connections.any fun k =>
      k.dcId = dcId && k.tx = j then d.abort else d).Sound target) := by
    intro j d
    split
    next => exact ⟨rfl, rfl, fun hd => ⟨⟨hd.wf.failed, hd.wf.ended⟩, hd.own⟩⟩
    next => exact ⟨rfl, rfl, id⟩
  have htasks := hcancelled.setTasks (Kept.mapIdx (fun j d => (habort j d).1)
    fun j d => (habort j d).2.1) (fun d hd => by
      obtain ⟨j, hj, rfl⟩ := List.mem_mapIdx.mp hd
      exact (habort j _).2.2 (h.tasks _ (List.getElem_mem hj)))
    fun r => by rw [held_mapIdx fun j d => (habort j d).2.1]
  refine ⟨{ htasks with
    connections := fun k hk => htasks.connections k (List.mem_filter.mp hk).1
    entries := fun e he => htasks.entries e (List.mem_filter.mp he).1
    routes := h.routes.finishDisconnect dcId
    begun := fun dc => ?_
    staged := fun failed todo hrunner => ?_ }, ?_⟩
  · change s.departing.count dc + s.queue.countP (Request.disconnects dc) ≤
      RouteCache.total dc (s.routes.finishDisconnect dcId).disconnecting
    rw [RouteCache.total_finishDisconnect h.routes]
    have := hbegun dc
    simp only [List.countP_cons, Request.disconnects, decide_eq_true_eq, eq_comm (a := dcId)] at this
    omega
  · rw [show s.runner = .stopping failed todo from hrunner] at hwaiting
    cases hwaiting
  · have hmap := Kept.mapIdx (s := s.cancelSetup dcId) (fun j d => (habort j d).1)
      fun j d => (habort j d).2.1
    rw [heq] at hmap
    exact hkept.trans (hmap.trans (Kept.of_same rfl rfl rfl))

theorem closeRoutes (h : Inv target hand s) :
    Inv target hand { s with routes := s.routes.close } :=
  { h with
    entries := fun _ he => absurd he List.not_mem_nil
    routes := h.routes.close
    staged := fun failed todo hrunner =>
      { h.staged failed todo hrunner with routes := fun _ => rfl } }

theorem closeQueue (h : Inv target hand s) (hs : s.runner.active = false) :
    Inv target hand { s with queueClosed := true } :=
  { h with
    opened := fun hactive => by
      rw [show s.runner.active = true from hactive] at hs
      cases hs
    staged := fun failed todo hrunner =>
      have hbefore := h.staged failed todo hrunner
      { hbefore with
        closed := fun _ => rfl
        drained := fun hnot => ⟨rfl, (hbefore.drained hnot).2⟩ } }

theorem drainQueue (h : Inv target hand s) :
    Inv target hand (State.resolve { s with queue := [] } (s.queue.flatMap Request.rpcs)) := by
  refine resolve { h with
    counted := fun r => ?_
    queue := fun _ hq => absurd hq List.not_mem_nil
    begun := fun dc => Nat.le_trans (Nat.add_le_add_left (Nat.zero_le _) _) (h.begun dc)
    staged := fun failed todo hrunner => ?_ }
  · have := h.counted r
    have hflat : (s.queue.flatMap Request.rpcs).count r = Census.held Request.rpcs r s.queue := rfl
    simp only [State.held, held_nil, List.count_append, hflat] at *
    omega
  · have hbefore := h.staged failed todo hrunner
    exact { hbefore with drained := fun hnot => ⟨(hbefore.drained hnot).1, rfl⟩ }

theorem clearConnections (h : Inv target hand s) : Inv target hand { s with connections := [] } :=
  { h with
    connections := fun _ hk => absurd hk List.not_mem_nil
    staged := fun failed todo hrunner =>
      { h.staged failed todo hrunner with unlinked := fun _ => rfl } }

theorem clearPending (h : Inv target hand s) : Inv target hand
    (State.resolve { s with pending := [] } (s.pending.flatMap (·.requests))) := by
  have hcleared : Inv target (s.pending.flatMap (·.requests) ++ hand) { s with pending := [] } :=
    h.setPending (fun _ hp => absurd hp List.not_mem_nil) List.nodup_nil
      (fun _ _ hp => absurd hp List.not_mem_nil) h.setups (fun _ _ => rfl) fun r => by
        rw [held_nil, Nat.zero_add, List.count_append]
        rfl
  exact hcleared.resolve

theorem abortSetups (h : Inv target hand s) (hs : s.runner.active = false) :
    Inv target hand { s with setups := s.setups.map Setup.abort } := by
  refine h.setPending h.pending h.single (fun hactive => ?_) (fun u hu _ => ?_) (fun hnil _ => hnil)
    fun r => rfl
  · rw [hs] at hactive
    cases hactive
  · obtain ⟨v, -, rfl⟩ := List.mem_map.mp hu
    rfl

theorem abortConnections (h : Inv target hand s) :
    Inv target hand { s with tasks := s.tasks.map Connection.abort } ∧
      Kept s { s with tasks := s.tasks.map Connection.abort } := by
  have hmap : s.tasks.map Connection.abort = s.tasks.mapIdx fun _ c => c.abort :=
    List.ext_getElem? fun j => by rw [List.getElem?_map, List.getElem?_mapIdx]
  have hkept : Kept s { s with tasks := s.tasks.map Connection.abort } := by
    rw [hmap]
    exact Kept.mapIdx (fun _ _ => rfl) fun _ _ => rfl
  refine ⟨h.setTasks hkept (fun c hc => ?_) fun r => ?_, hkept⟩
  · obtain ⟨d, hd, rfl⟩ := List.mem_map.mp hc
    have hsound := h.tasks d hd
    exact ⟨⟨hsound.wf.failed, hsound.wf.ended⟩, hsound.own⟩
  · have habort : ∀ (_ : Nat) (c : Connection), c.abort.rpcs = c.rpcs := fun _ _ => rfl
    rw [hmap, held_mapIdx habort]

theorem restage (h : Inv target hand s) (hrunner : s.runner = .stopping failed (step :: todo))
    (hdone : Done s.routes.stopping s.queueClosed s.queue s.pending s.connections step) :
    Inv target hand { s with runner := .stopping failed todo } :=
  { h with
    runner := trivial
    waited := fun hactive => by cases hactive
    opened := fun hactive => by cases hactive
    staged := fun failed' todo' heq => by
      cases heq
      exact (h.staged failed _ hrunner).next hdone
    counted := fun r => by
      have := h.counted r
      simp only [State.held, hrunner, Runner.rpcs] at *
      exact this }

theorem cleanup (h : Inv target hand s) (hrunner : s.runner = .stopping failed (step :: todo)) :
    Inv target hand { s.cleanup failed step with runner := .stopping failed todo } ∧
      Kept s { s.cleanup failed step with runner := .stopping failed todo } := by
  have hs : s.runner.active = false := by rw [hrunner]; rfl
  cases step with
  | closeRoutes => exact ⟨h.closeRoutes.restage hrunner rfl, Kept.of_same rfl rfl rfl⟩
  | closeQueue => exact ⟨(h.closeQueue hs).restage hrunner rfl, Kept.of_same rfl rfl rfl⟩
  | drainQueue =>
    exact ⟨h.drainQueue.restage hrunner rfl,
      Kept.frame rfl (List.prefix_append _ _) List.prefix_rfl⟩
  | clearConnections => exact ⟨h.clearConnections.restage hrunner rfl, Kept.of_same rfl rfl rfl⟩
  | clearPending =>
    exact ⟨h.clearPending.restage hrunner rfl,
      Kept.frame rfl (List.prefix_append _ _) List.prefix_rfl⟩
  | abortSetups => exact ⟨(h.abortSetups hs).restage hrunner trivial, Kept.of_same rfl rfl rfl⟩
  | joinSetups => exact ⟨h.restage hrunner trivial, Kept.of_same rfl rfl rfl⟩
  | abortConnections =>
    unfold State.cleanup
    simp only
    split
    next =>
      obtain ⟨haborted, hkept⟩ := h.abortConnections
      exact ⟨haborted.restage hrunner trivial, hkept.trans (Kept.of_same rfl rfl rfl)⟩
    next => exact ⟨h.restage hrunner trivial, Kept.of_same rfl rfl rfl⟩
  | joinConnections => exact ⟨h.restage hrunner trivial, Kept.of_same rfl rfl rfl⟩

/-- The end of a setup task is seen: no group waits for it any more. -/
theorem setupLeft (h : Inv target hand s) (hs : s.runner.active = true) {u : Setup}
    (hu : s.setups[i]? = some u) {pending : List PendingConnection}
    (hsub : ∀ p ∈ pending, p ∈ s.pending ∧ ¬(p.dcId = u.dcId ∧ p.setup = i))
    (hsingle : (pending.map (·.dcId)).Nodup)
    (hcount : ∀ r, Census.held PendingConnection.requests r pending + more.count r =
      Census.held PendingConnection.requests r s.pending + hand.count r) :
    Inv target more { s with
      pending := pending, setups := s.setups.set i { u with joined := true } } := by
  refine h.leaveSetup i (fun p hp => ?_) hsingle (fun j hj => List.getElem?_set_ne (Ne.symm hj))
    (fun v hv hcancelled => ?_) hcount
  · obtain ⟨hmem, hnot⟩ := hsub p hp
    refine ⟨hmem, fun heq => hnot ⟨?_, heq⟩⟩
    obtain ⟨v, hv, hdc, -⟩ := h.waited hs p hmem
    rw [heq, hu] at hv
    cases hv
    exact hdc.symm
  · rcases List.mem_or_eq_of_mem_set hv with hv | rfl
    · exact h.setups v hv hcancelled
    · exact h.setups u (List.mem_of_getElem? hu) hcancelled

theorem finishSetup (h : Inv target hand s) (hs : s.runner.active = true) {u : Setup}
    (hu : s.setups[i]? = some u) (ok : Bool) :
    Inv target hand (State.finishSetup
        { s with setups := s.setups.set i { u with joined := true } } u.dcId i ok) ∧
      Kept s (State.finishSetup
        { s with setups := s.setups.set i { u with joined := true } } u.dcId i ok) := by
  unfold State.finishSetup
  split
  next k p hp =>
    obtain ⟨hk, hgroup⟩ := position_eq_some hp
    rw [Bool.and_eq_true, decide_eq_true_eq, decide_eq_true_eq] at hgroup
    have hk : s.pending[k]? = some p := hk
    have hleft := h.setupLeft hs hu (fun q hq => by
      obtain ⟨hmem, hne⟩ := h.other_group hk hq
      exact ⟨hmem, fun heq => hne (heq.1.trans hgroup.1.symm)⟩) (h.single_swapRemove hk)
      (count_group hk)
    simp only
    split
    next =>
      obtain ⟨hinv, hkept⟩ := hleft.connected hs fun r hr =>
        (h.pending p (List.mem_of_getElem? hk) r hr).trans hgroup.1
      refine ⟨hinv, Kept.trans (Kept.of_same ?_ ?_ ?_) hkept⟩ <;> rfl
    next =>
      exact ⟨hleft.resolve, Kept.frame rfl (List.prefix_append _ _) List.prefix_rfl⟩
  next hnone =>
    have hnone := position_eq_none hnone
    refine ⟨h.setupLeft hs hu (fun p hp => ⟨hp, fun heq => ?_⟩) h.single fun r => rfl,
      Kept.of_same rfl rfl rfl⟩
    have := hnone p hp
    simp [heq] at this

theorem setupJoined (h : Inv target hand s) (hwaiting : s.runner = .waiting) {u : Setup}
    (hu : s.setups[i]? = some u) {outcome : Outcome} (hout : u.outcome = some outcome) :
    Inv target hand (State.setupJoined
        { s with setups := s.setups.set i { u with joined := true } } i u outcome) ∧
      Kept s (State.setupJoined
        { s with setups := s.setups.set i { u with joined := true } } i u outcome) := by
  have hs : s.runner.active = true := by rw [hwaiting]; rfl
  have hcancelled : ∀ v ∈ s.setups.set i { u with joined := true },
      v.outcome = some .cancelled → v.aborted = true := by
    intro v hv
    rcases List.mem_or_eq_of_mem_set hv with hv | rfl
    · exact h.setups v hv
    · exact h.setups u (List.mem_of_getElem? hu)
  cases outcome with
  | connected => exact h.finishSetup hs hu true
  | failed => exact h.finishSetup hs hu false
  | cancelled =>
    have haborted := h.setups u (List.mem_of_getElem? hu) hout
    refine ⟨h.setupLeft hs hu (fun p hp => ⟨hp, fun heq => ?_⟩) h.single fun r => rfl,
      Kept.of_same rfl rfl rfl⟩
    obtain ⟨v, hv, -, hlive, -⟩ := h.waited hs p hp
    rw [heq.2, hu] at hv
    cases hv
    rw [haborted] at hlive
    cases hlive
  | panicked =>
    have hempty : s.runner.rpcs = [] := by rw [hwaiting]; rfl
    exact ⟨(h.halt hempty (Or.inl rfl) true).setPending h.pending h.single
      (fun hactive => by cases hactive) hcancelled (fun hnil _ => hnil) fun r => rfl,
      Kept.of_same rfl rfl rfl⟩

end Inv

end Grammers.SenderPool
