import Grammers.PoolSteps

namespace Grammers.SenderPool

open Census LabelledPath SwapRemove

variable {target : Rpc → Int32} {s t : State} {a : Action} {as : List Action} {dcId : Int32}
  {rpc : Rpc} {i : Nat}

namespace Inv

theorem takeCall (h : Inv target [] s) {call : Call} (hcall : s.calls[i]? = some call) :
    Inv target call.rpcs { s with calls := s.calls.eraseIdx i } := by
  refine h.setCalls (fun c hc => h.calls c (List.mem_of_mem_eraseIdx hc)) fun r => ?_
  rw [← List.append_nil call.rpcs]
  exact count_take hcall r

theorem resolveAll {rpcs : List Rpc} (h : Inv target rpcs s) : Inv target [] (s.resolve rpcs) := by
  rw [← List.append_nil rpcs] at h
  exact h.resolve

theorem setCall (h : Inv target [] s) {call call' : Call} (hcall : s.calls[i]? = some call)
    (hsound : call'.Sound target s.tasks) (hrpcs : call'.rpcs = call.rpcs) :
    Inv target [] { s with calls := s.calls.set i call' } := by
  refine h.setCalls (fun c hc => ?_) fun r => ?_
  · rcases List.mem_or_eq_of_mem_set hc with hc | rfl
    · exact h.calls c hc
    · exact hsound
  · have := held_set (f := Call.rpcs) (r := r) hcall call'
    rw [hrpcs] at this
    omega

theorem invoke (h : Inv target [] s) (hfresh : rpc ∉ s.issued) :
    Inv target [] { s with
      issued := s.issued ++ [rpc], calls := s.calls ++ [.opened (target rpc) rpc] } :=
  { h with
    fresh := List.nodup_append.mpr ⟨h.fresh, List.nodup_singleton _, fun a ha b hb heq =>
      hfresh (List.mem_singleton.mp hb ▸ heq ▸ ha)⟩
    calls := List.forall_mem_append.mpr ⟨h.calls, List.forall_mem_singleton.mpr rfl⟩
    counted := fun r => by
      have := h.counted r
      simp only [State.held, held_append, held_cons, held_nil, Call.rpcs, List.count_append] at *
      omega }

theorem lookup (h : Inv target [] s) (hcall : s.calls[i]? = some (.opened dcId rpc)) :
    (∀ tx, s.routes.find dcId = some tx →
      Inv target [] { s with calls := s.calls.set i (.routed dcId rpc tx) }) ∧
    Inv target [] { s with calls := s.calls.set i (.unrouted dcId rpc) } := by
  have hown : target rpc = dcId := h.calls _ (List.mem_of_getElem? hcall)
  exact ⟨fun tx htx => h.setCall hcall ⟨hown, h.entries _ (RouteCache.mem_of_find htx)⟩ rfl,
    h.setCall hcall hown rfl⟩

theorem disconnect (h : Inv target [] s) (dcId : Int32) : Inv target [] { s with
    routes := s.routes.beginDisconnect dcId, departing := s.departing ++ [dcId] } :=
  { h with
    entries := fun e he => h.entries e (List.mem_filter.mp he).1
    routes := h.routes.beginDisconnect dcId
    begun := fun dc => by
      have := h.begun dc
      change (s.departing ++ [dcId]).count dc + s.queue.countP (Request.disconnects dc) ≤
        RouteCache.total dc (s.routes.beginDisconnect dcId).disconnecting
      rw [RouteCache.total_beginDisconnect, List.count_append, List.count_singleton]
      simp only [beq_iff_eq, eq_comm (a := dcId)]
      omega
    staged := fun failed todo hrunner => h.staged failed todo hrunner }

theorem sendDisconnect (h : Inv target [] s) (hdc : s.departing[i]? = some dcId) :
    Inv target []
        (State.request { s with departing := s.departing.eraseIdx i } (.disconnect dcId)) ∧
      Kept s (State.request { s with departing := s.departing.eraseIdx i } (.disconnect dcId)) := by
  have herase : ∀ dc, (s.departing.eraseIdx i).count dc + [dcId].count dc =
      s.departing.count dc := by
    intro dc
    have := held_eraseIdx (f := fun d : Int32 => [d]) (r := dc) hdc
    simpa [Census.held] using this
  have hleft : Inv target [] { s with departing := s.departing.eraseIdx i } :=
    { h with
      begun := fun dc => by
        have hlow := herase dc
        have hhigh := h.begun dc
        change (s.departing.eraseIdx i).count dc + s.queue.countP (Request.disconnects dc) ≤
          RouteCache.total dc s.routes.disconnecting
        omega }
  obtain ⟨hinv, hkept⟩ := hleft.request (q := .disconnect dcId) trivial fun dc => by
    have hlow := herase dc
    have hhigh := h.begun dc
    change (s.departing.eraseIdx i).count dc +
      (s.queue ++ [Request.disconnect dcId]).countP (Request.disconnects dc) ≤
        RouteCache.total dc s.routes.disconnecting
    rw [List.countP_append, List.countP_singleton]
    simp only [Request.disconnects, decide_eq_true_eq]
    rw [List.count_singleton] at hlow
    simp only [beq_iff_eq] at hlow
    omega
  refine ⟨hinv, Kept.trans (Kept.of_same ?_ ?_ ?_) hkept⟩ <;> rfl

theorem sendRequest (h : Inv target [] s) {dcId : Int32}
    (hcall : s.calls[i]? = some (.unrouted dcId rpc)) :
    Inv target []
        (State.request { s with calls := s.calls.eraseIdx i } (.invoke dcId rpc)) ∧
      Kept s (State.request { s with calls := s.calls.eraseIdx i } (.invoke dcId rpc)) := by
  have htaken : Inv target ([rpc] ++ []) { s with calls := s.calls.eraseIdx i } := h.takeCall hcall
  obtain ⟨hinv, hkept⟩ := htaken.request (q := .invoke dcId rpc)
    (h.calls _ (List.mem_of_getElem? hcall)) fun dc => by
      rw [List.countP_append]
      exact h.begun dc
  refine ⟨hinv, Kept.trans (Kept.of_same ?_ ?_ ?_) hkept⟩ <;> rfl

theorem setupEnds (h : Inv target [] s) {u : Setup} {outcome : Outcome}
    (hu : s.setups[i]? = some u) (hcancelled : outcome = .cancelled → u.aborted = true) :
    Inv target [] { s with setups := s.setups.set i { u with outcome := some outcome } } := by
  refine h.setPending h.pending h.single (fun hactive p hp => ?_) (fun v hv heq => ?_)
    (fun hnil _ => hnil) fun r => rfl
  · obtain ⟨v, hv, hrest⟩ := h.waited hactive p hp
    by_cases hi : i = p.setup
    · subst hi
      obtain rfl : u = v := Option.some.inj (hu.symm.trans hv)
      exact ⟨_, List.getElem?_set_self (List.getElem?_eq_some_iff.mp hv).1, hrest⟩
    · exact ⟨v, (List.getElem?_set_ne hi).trans hv, hrest⟩
  · rcases List.mem_or_eq_of_mem_set hv with hv | rfl
    · exact h.setups v hv heq
    · exact hcancelled (Option.some.inj heq)

theorem taskSteps (h : Inv target [] s) {c c' : Connection} {out : List Rpc} {a : TaskAction}
    (hc : s.tasks[i]? = some c) (hstep : c.step (s.reachable i) a = some (c', out)) :
    Inv target [] (State.resolve { s with tasks := s.tasks.set i c' } out) ∧
      Kept s (State.resolve { s with tasks := s.tasks.set i c' } out) := by
  have hsound := h.tasks c (List.mem_of_getElem? hc)
  have hstepped := Connection.step_spec hsound.wf hstep
  have hmoved : ∀ r ∈ c.rpcs, r ∈ c'.rpcs ∨ r ∈ out := by
    intro r hr
    have hpos := List.count_pos_iff.mpr hr
    rw [← hstepped.counted r] at hpos
    by_cases hmem : r ∈ c'.rpcs
    · exact Or.inl hmem
    · rw [List.count_eq_zero_of_not_mem hmem, Nat.zero_add, List.count_pos_iff] at hpos
      exact Or.inr hpos
  have hkept := Kept.set hc hstepped.dcId hmoved
  refine ⟨resolveAll { h with
    calls := fun d hd => (h.calls d hd).mono hkept
    runner := h.runner.mono hkept
    tasks := fun d hd => ?_
    connections := fun k hk => hkept.linked (h.connections k hk)
    entries := fun e he => hkept.linked (h.entries e he)
    counted := fun r => ?_ }, hkept⟩
  · have := h.counted r
    have hset := held_set (f := Connection.rpcs) (r := r) hc c'
    have hcount := hstepped.counted r
    simp only [State.held, List.count_nil] at *
    omega
  · rcases List.mem_or_eq_of_mem_set hd with hd | rfl
    · exact h.tasks d hd
    · exact ⟨hstepped.wf, fun r hr => (hsound.own r (hstepped.mem r hr)).trans hstepped.dcId.symm⟩

theorem joined (h : Inv target [] s) {c : Connection} (hc : s.tasks[i]? = some c) :
    Inv target [] { s with tasks := s.tasks.set i { c with joined := true } } ∧
      Kept s { s with tasks := s.tasks.set i { c with joined := true } } := by
  have hsound := h.tasks c (List.mem_of_getElem? hc)
  have hset : Kept s (State.resolve
      { s with tasks := s.tasks.set i { c with joined := true } } []) :=
    Kept.set hc rfl fun r hr => Or.inl hr
  have hkept : Kept s { s with tasks := s.tasks.set i { c with joined := true } } := by
    simpa only [State.resolve, List.append_nil] using hset
  refine ⟨h.setTasks hkept (fun d hd => ?_) fun r => ?_, hkept⟩
  · rcases List.mem_or_eq_of_mem_set hd with hd | rfl
    · exact h.tasks d hd
    · exact ⟨⟨hsound.wf.failed, hsound.wf.ended⟩, hsound.own⟩
  · have := held_set (f := Connection.rpcs) (r := r) hc { c with joined := true }
    have hsame : ({ c with joined := true } : Connection).rpcs = c.rpcs := rfl
    rw [hsame] at this
    omega

theorem poll (h : Inv target [] s) (hwaiting : s.runner = .waiting) {p : PendingConnection}
    (hp : s.pending[i]? = some p) (closed : List Rpc) :
    Inv target [] (State.resolve { s with
      pending := s.pending.set i { p with requests := p.requests.filter (· ∉ closed) } }
        (p.requests.filter (· ∈ closed))) := by
  have hpending : Inv target (p.requests.filter (· ∈ closed)) { s with
      pending := s.pending.set i { p with requests := p.requests.filter (· ∉ closed) } } := by
    refine h.setGroup (by rw [hwaiting]; rfl) hp (fun r hr => ?_) fun r => ?_
    · exact h.pending p (List.mem_of_getElem? hp) r (List.mem_filter.mp hr).1
    · have hsplit := (List.filter_append_perm (· ∈ closed) p.requests).count_eq r
      simp only [List.count_nil, List.count_append, decide_not] at hsplit ⊢
      omega
  exact hpending.resolveAll

theorem takeRunner (h : Inv target [] s) (hs : s.runner.active = true)
    (hrpcs : s.runner.rpcs = [rpc]) : Inv target [rpc] { s with runner := .waiting } :=
  h.setRunner hs rfl trivial fun r => by
    rw [hrpcs]
    exact Nat.add_comm _ _

theorem setup_restart (h : Inv target [] s) (hown : target rpc = dcId)
    (hs : s.runner.active = true) (hrpcs : s.runner.rpcs = [rpc]) :
    Inv target [] (State.startSetup { s with runner := .waiting } dcId rpc) ∧
      Kept s (State.startSetup { s with runner := .waiting } dcId rpc) := by
  obtain ⟨hinv, hkept⟩ := (h.takeRunner hs hrpcs).startSetup hown rfl
  refine ⟨hinv, Kept.trans (Kept.of_same ?_ ?_ ?_) hkept⟩ <;> rfl

theorem setupJoinedLate (h : Inv target [] s) {failed : Bool} {todo : List Cleanup}
    (hrunner : s.runner = .stopping failed todo) {u : Setup} (hu : s.setups[i]? = some u)
    (failed' : Bool) :
    Inv target [] { s with
        setups := s.setups.set i { u with joined := true }, runner := .stopping failed' todo } ∧
      Kept s { s with
        setups := s.setups.set i { u with joined := true }, runner := .stopping failed' todo } := by
  refine ⟨(h.refail hrunner failed').setPending h.pending h.single
    (fun hactive => by cases hactive) (fun v hv => ?_) (fun hnil _ => hnil) fun r => rfl,
    Kept.of_same rfl rfl rfl⟩
  rcases List.mem_or_eq_of_mem_set hv with hv | rfl
  · exact h.setups v hv
  · exact h.setups u (List.mem_of_getElem? hu)

theorem receive (h : Inv target [] s) (hwaiting : s.runner = .waiting)
    (hstep : s.receive = some t) : Inv target [] t ∧ Kept s t := by
  unfold State.receive at hstep
  have hs : s.runner.active = true := by rw [hwaiting]; rfl
  split at hstep
  next dcId rpc queue hqueue =>
    obtain ⟨htaken, hown, -⟩ := h.takeRequest hqueue hwaiting
    split at hstep
    next =>
      cases hstep
      exact ⟨htaken.resolveAll, Kept.frame rfl (List.prefix_append _ _) List.prefix_rfl⟩
    next =>
      cases hstep
      exact ⟨htaken.setRunner hs (rfl : Runner.active (.received dcId rpc) = true) hown fun r => by
        rw [show State.runner { s with queue := queue } = .waiting from hwaiting]
        simp [Runner.rpcs, Request.rpcs], Kept.of_same rfl rfl rfl⟩
  next dcId queue hqueue =>
    obtain ⟨htaken, -, hbegun⟩ := h.takeRequest hqueue hwaiting
    cases hstep
    obtain ⟨hinv, hkept⟩ := Inv.processDisconnect htaken hwaiting hbegun
    refine ⟨hinv, Kept.trans (Kept.of_same ?_ ?_ ?_) hkept⟩ <;> rfl
  next queue hqueue =>
    obtain ⟨htaken, -, -⟩ := h.takeRequest hqueue hwaiting
    cases hstep
    exact ⟨htaken.halt (by rw [show State.runner { s with queue := queue } = .waiting from hwaiting]
                           rfl) (Or.inl rfl) false, Kept.of_same rfl rfl rfl⟩
  next =>
    split at hstep
    next => cases hstep
    next =>
      cases hstep
      exact ⟨h.halt (by rw [hwaiting]; rfl) (Or.inl rfl) false, Kept.of_same rfl rfl rfl⟩

theorem step (h : Inv target [] s) (hstep : Step target s a t) : Inv target [] t ∧ Kept s t := by
  unfold Step at hstep
  cases a with
  | invoke rpc =>
    simp only [SenderPool.step, Option.ite_none_right_eq_some] at hstep
    obtain ⟨⟨-, -, hfresh⟩, hstep⟩ := hstep
    cases hstep
    exact ⟨h.invoke hfresh, Kept.frame rfl List.prefix_rfl (List.prefix_append _ _)⟩
  | lookup i =>
    simp only [SenderPool.step] at hstep
    split at hstep
    next dcId rpc hcall =>
      split at hstep
      next =>
        cases hstep
        exact ⟨(h.takeCall hcall).resolveAll,
          Kept.frame rfl (List.prefix_append _ _) List.prefix_rfl⟩
      next =>
        split at hstep
        next tx htx =>
          cases hstep
          exact ⟨(h.lookup hcall).1 tx htx, Kept.of_same rfl rfl rfl⟩
        next =>
          cases hstep
          exact ⟨(h.lookup hcall).2, Kept.of_same rfl rfl rfl⟩
    next => cases hstep
  | send i =>
    simp only [SenderPool.step] at hstep
    split at hstep
    next dcId rpc tx hcall =>
      obtain ⟨hown, c, hc, hdc⟩ := h.calls _ (List.mem_of_getElem? hcall)
      split at hstep
      next u hu =>
        obtain ⟨d, hd, hopen, rfl⟩ := enqueue_eq_some hu
        cases hstep
        cases hc.symm.trans hd
        obtain ⟨hinv, hkept⟩ := Inv.push (h.takeCall hcall) hd hopen (hown.trans hdc.symm)
        refine ⟨hinv, Kept.trans (Kept.of_same ?_ ?_ ?_) hkept⟩ <;> rfl
      next =>
        cases hstep
        exact ⟨h.setCall hcall hown rfl, Kept.of_same rfl rfl rfl⟩
    next dcId rpc hcall =>
      cases hstep
      exact h.sendRequest hcall
    next => cases hstep
  | disconnect dcId =>
    simp only [SenderPool.step, Option.ite_none_right_eq_some] at hstep
    obtain ⟨-, hstep⟩ := hstep
    cases hstep
    exact ⟨h.disconnect dcId, Kept.of_same rfl rfl rfl⟩
  | sendDisconnect i =>
    simp only [SenderPool.step] at hstep
    split at hstep
    next dcId hdc =>
      cases hstep
      exact h.sendDisconnect hdc
    next => cases hstep
  | quit =>
    simp only [SenderPool.step, Option.ite_none_right_eq_some] at hstep
    obtain ⟨-, hstep⟩ := hstep
    cases hstep
    exact ⟨{ h.closeRoutes with }, Kept.of_same rfl rfl rfl⟩
  | sendQuit =>
    simp only [SenderPool.step] at hstep
    split at hstep
    next => cases hstep
    next =>
      cases hstep
      have hleft : Inv target [] { s with quitting := s.quitting - 1 } := { h with }
      obtain ⟨hinv, hkept⟩ := hleft.request (q := .quit) trivial fun dc => by
        rw [List.countP_append]
        exact h.begun dc
      refine ⟨hinv, Kept.trans (Kept.of_same ?_ ?_ ?_) hkept⟩ <;> rfl
  | activate =>
    simp only [SenderPool.step, Option.ite_none_right_eq_some] at hstep
    obtain ⟨-, hstep⟩ := hstep
    cases hstep
    exact ⟨{ h with routes := ⟨h.routes.counts, h.routes.blocked, h.routes.stopped⟩ },
      Kept.of_same rfl rfl rfl⟩
  | leave rpc =>
    simp only [SenderPool.step, Option.ite_none_right_eq_some] at hstep
    obtain ⟨-, hstep⟩ := hstep
    cases hstep
    exact ⟨{ h with }, Kept.of_same rfl rfl rfl⟩
  | dropHandles =>
    simp only [SenderPool.step, Option.ite_none_right_eq_some] at hstep
    obtain ⟨-, hstep⟩ := hstep
    cases hstep
    exact ⟨{ h with }, Kept.of_same rfl rfl rfl⟩
  | setup i outcome =>
    simp only [SenderPool.step] at hstep
    split at hstep
    next u hu =>
      rw [Option.ite_none_right_eq_some] at hstep
      obtain ⟨⟨-, hcancelled⟩, hstep⟩ := hstep
      cases hstep
      exact ⟨h.setupEnds hu hcancelled, Kept.of_same rfl rfl rfl⟩
    next => cases hstep
  | task i a =>
    simp only [SenderPool.step] at hstep
    split at hstep
    next c hc =>
      split at hstep
      next c' out hc' =>
        cases hstep
        exact h.taskSteps hc hc'
      next => cases hstep
    next => cases hstep
  | receive =>
    simp only [SenderPool.step, Option.ite_none_right_eq_some] at hstep
    exact h.receive hstep.1 hstep.2
  | route =>
    simp only [SenderPool.step] at hstep
    split at hstep
    next dcId rpc hrunner =>
      have hs : s.runner.active = true := by rw [hrunner]; rfl
      have hown : target rpc = dcId := by
        have := h.runner
        rwa [hrunner] at this
      split at hstep
      next k hk =>
        cases hstep
        have hlink := h.connections k (List.mem_of_find?_eq_some hk)
        have hfound := List.find?_some hk
        rw [Bool.and_eq_true, decide_eq_true_eq] at hfound
        rw [hfound.1] at hlink
        exact ⟨h.setRunner hs rfl ⟨hown, hlink⟩ fun r => by rw [hrunner]; rfl,
          Kept.of_same rfl rfl rfl⟩
      next =>
        cases hstep
        exact h.setup_restart hown hs (by rw [hrunner]; rfl)
    next => cases hstep
  | deliver =>
    simp only [SenderPool.step] at hstep
    split at hstep
    next dcId rpc tx hrunner =>
      have hs : s.runner.active = true := by rw [hrunner]; rfl
      obtain ⟨hown, c, hc, hdc⟩ : target rpc = dcId ∧ Linked s.tasks tx dcId := by
        have := h.runner
        rwa [hrunner] at this
      split at hstep
      next u hu =>
        obtain ⟨d, hd, hopen, rfl⟩ := enqueue_eq_some hu
        cases hstep
        cases hc.symm.trans hd
        obtain ⟨hinv, hkept⟩ := Inv.push (h.takeRunner hs (by rw [hrunner]; rfl)) hd hopen
          (hown.trans hdc.symm)
        refine ⟨hinv, Kept.trans (Kept.of_same ?_ ?_ ?_) hkept⟩ <;> rfl
      next =>
        cases hstep
        exact h.setup_restart hown hs (by rw [hrunner]; rfl)
    next => cases hstep
  | joinSetup i =>
    simp only [SenderPool.step] at hstep
    split at hstep
    next dcId outcome aborted hu =>
      split at hstep
      next hrunner =>
        cases hstep
        exact h.setupJoined hrunner hu rfl
      next failed todo hrunner =>
        cases hstep
        exact h.setupJoinedLate hrunner hu _
      next => cases hstep
    next => cases hstep
  | joinTask i =>
    simp only [SenderPool.step] at hstep
    split at hstep
    next c hc =>
      obtain ⟨hjoined, hkept⟩ := h.joined hc
      obtain ⟨hinv, hkept'⟩ := hjoined.recordCompletion
      have hboth := hkept.trans hkept'
      split at hstep
      next panicked hfinished hunjoined =>
        split at hstep
        next hrunner =>
          cases hstep
          split
          next =>
            exact ⟨hinv.halt (show s.runner.rpcs = [] by rw [hrunner]; rfl) (Or.inl rfl) true,
              hboth.trans (Kept.of_same rfl rfl rfl)⟩
          next => exact ⟨hinv, hboth⟩
        next failed todo hrunner =>
          cases hstep
          exact ⟨hinv.refail hrunner _, hboth.trans (Kept.of_same rfl rfl rfl)⟩
        next => cases hstep
      next => cases hstep
    next => cases hstep
  | poll i closed =>
    simp only [SenderPool.step] at hstep
    split at hstep
    next p hp =>
      rw [Option.ite_none_right_eq_some] at hstep
      obtain ⟨⟨hwaiting, -⟩, hstep⟩ := hstep
      have hpoll := h.poll hwaiting hp closed
      have hkept : Kept s (State.resolve { s with
          pending := s.pending.set i { p with requests := p.requests.filter (· ∉ closed) } }
            (p.requests.filter (· ∈ closed))) :=
        Kept.frame rfl (List.prefix_append _ _) List.prefix_rfl
      cases hstep
      split
      next =>
        obtain ⟨hinv, hkept'⟩ := hpoll.cancelSetup
          (show s.runner.active = true by rw [hwaiting]; rfl) p.dcId
        exact ⟨hinv, hkept.trans hkept'⟩
      next => exact ⟨hpoll, hkept⟩
    next => cases hstep
  | crash =>
    simp only [SenderPool.step, Option.ite_none_right_eq_some] at hstep
    obtain ⟨hwaiting, hstep⟩ := hstep
    cases hstep
    exact ⟨h.halt (by rw [hwaiting]; rfl) (Or.inl rfl) true, Kept.of_same rfl rfl rfl⟩
  | dropRunner =>
    simp only [SenderPool.step] at hstep
    have hempty : s.runner.rpcs = [] → some { s with runner := .stopping true dropped } = some t →
        Inv target [] t ∧ Kept s t := by
      intro hempty heq
      cases heq
      exact ⟨h.halt hempty (Or.inr rfl) true, Kept.of_same rfl rfl rfl⟩
    split at hstep
    next hrunner => exact hempty (by rw [hrunner]; rfl) hstep
    next hrunner => exact hempty (by rw [hrunner]; rfl) hstep
    next hrunner => exact hempty (by rw [hrunner]; rfl) hstep
    next => cases hstep
  | cleanup =>
    simp only [SenderPool.step] at hstep
    split at hstep
    next failed c todo hrunner =>
      rw [Option.ite_none_right_eq_some] at hstep
      obtain ⟨-, hstep⟩ := hstep
      cases hstep
      exact h.cleanup hrunner
    next => cases hstep

end Inv

end Grammers.SenderPool
