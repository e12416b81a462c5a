import Grammers.PoolRouting

namespace Grammers.SenderPool

open Census LabelledPath

/-- Where a call can be. -/
inductive Place where
  | call (i : Nat)
  | queued (i : Nat)
  | runner
  | pending (i : Nat)
  | connection (i : Nat)
  | resolved
  deriving DecidableEq

variable {target : Rpc → Int32} {s t : State} {as bs : List Action} {parked : Bool} {rpc : Rpc}
  {i : Nat} {place other : Place}

def Call.dcId : Call → Int32
  | .opened dcId _ | .routed dcId _ _ | .unrouted dcId _ => dcId

def Request.dcId : Request → Option Int32
  | .invoke dcId _ => some dcId
  | .disconnect _ | .quit => none

def Runner.dcId : Runner → Option Int32
  | .received dcId _ | .sending dcId _ _ => some dcId
  | .waiting | .stopping _ _ => none

namespace State

def inside (s : State) : Place → List Rpc
  | .call i => s.calls[i]?.elim [] Call.rpcs
  | .queued i => s.queue[i]?.elim [] Request.rpcs
  | .runner => s.runner.rpcs
  | .pending i => s.pending[i]?.elim [] PendingConnection.requests
  | .connection i => s.tasks[i]?.elim [] Connection.rpcs
  | .resolved => s.resolved

/-- The datacenter that the calls of a place are for, if they are for one. -/
def dcId (s : State) : Place → Option Int32
  | .call i => s.calls[i]?.map Call.dcId
  | .queued i => s.queue[i]?.bind Request.dcId
  | .runner => s.runner.dcId
  | .pending i => s.pending[i]?.map PendingConnection.dcId
  | .connection i => s.tasks[i]?.map Connection.dcId
  | .resolved => none

def run (target : Rpc → Int32) (s : State) : List Action → Option State
  | [] => some s
  | a :: as => (step target s a).bind fun t => run target t as

end State

theorem path_of_run (h : s.run target as = some t) : Path (Step target) s as t := by
  induction as generalizing s with
  | nil =>
    cases h
    exact Path.nil
  | cons a as ih =>
    obtain ⟨u, hstep, hrest⟩ := Option.bind_eq_some_iff.mp h
    exact Path.cons hstep (ih hrest)

theorem Inv.run (h : Inv target [] s) (hrun : Path (Step target) s as t) :
    Inv target [] t ∧ Kept s t :=
  hrun.invariant (I := fun t => Inv target [] t ∧ Kept s t)
    (fun _ _ _ hinv hstep => by
      obtain ⟨hnext, hkept⟩ := hinv.1.step hstep
      exact ⟨hnext, hinv.2.trans hkept⟩) ⟨h, Kept.refl s⟩

theorem Inv.reach (hrun : Path (Step target) (.init parked) as s) : Inv target [] s :=
  ((Inv.init parked).run hrun).1

/-- How often a call is held by all the places of one kind. -/
def State.share (s : State) (r : Rpc) : Place → Nat
  | .call _ => Census.held Call.rpcs r s.calls
  | .queued _ => Census.held Request.rpcs r s.queue
  | .runner => s.runner.rpcs.count r
  | .pending _ => Census.held PendingConnection.requests r s.pending
  | .connection _ => Census.held Connection.rpcs r s.tasks
  | .resolved => s.resolved.count r

def Place.kind : Place → Nat
  | .call _ => 0
  | .queued _ => 1
  | .runner => 2
  | .pending _ => 3
  | .connection _ => 4
  | .resolved => 5

theorem share_le_held (s : State) (r : Rpc) (place : Place) : s.share r place ≤ s.held r := by
  unfold State.held
  cases place <;> simp only [State.share] <;> omega

theorem share_add_le_held (r : Rpc) (h : place.kind ≠ other.kind) :
    s.share r place + s.share r other ≤ s.held r := by
  unfold State.held
  cases place <;> cases other <;> simp only [State.share] <;>
    first | omega | exact absurd rfl h

theorem mem_cell {α : Type} {xs : List α} {f : α → List Rpc}
    (h : rpc ∈ xs[i]?.elim [] f) : ∃ x, xs[i]? = some x ∧ rpc ∈ f x := by
  cases hx : xs[i]? with
  | none =>
    rw [hx] at h
    cases h
  | some x =>
    rw [hx] at h
    exact ⟨x, rfl, h⟩

theorem count_cell {α : Type} {xs : List α} {f : α → List Rpc} :
    (xs[i]?.elim [] f).count rpc ≤ Census.held f rpc xs := by
  cases hx : xs[i]? with
  | none => exact Nat.zero_le _
  | some x => exact Nat.le.intro ((Nat.add_comm _ _).trans (held_eraseIdx hx))

theorem count_inside (s : State) (place : Place) (r : Rpc) :
    (s.inside place).count r ≤ s.share r place := by
  cases place with
  | call => exact count_cell
  | queued => exact count_cell
  | runner => exact Nat.le_refl _
  | pending => exact count_cell
  | connection => exact count_cell
  | resolved => exact Nat.le_refl _

theorem cell_unique {α : Type} {xs : List α} {f : α → List Rpc} {j : Nat}
    (hle : Census.held f rpc xs ≤ 1) (hi : rpc ∈ xs[i]?.elim [] f) (hj : rpc ∈ xs[j]?.elim [] f) :
    i = j := by
  obtain ⟨x, hx, hmem⟩ := mem_cell hi
  obtain ⟨y, hy, hmem'⟩ := mem_cell hj
  exact held_unique hle hx hy hmem hmem'

namespace Inv

theorem held_le_one (h : Inv target [] s) (r : Rpc) : s.held r ≤ 1 := by
  have hcount := h.counted r
  rw [List.count_nil, Nat.add_zero] at hcount
  rw [hcount]
  exact List.nodup_iff_count_le_one.mp h.fresh r

theorem place_unique (h : Inv target [] s) (hp : rpc ∈ s.inside place)
    (hq : rpc ∈ s.inside other) : place = other := by
  have hone := h.held_le_one rpc
  have hle := Nat.le_trans (share_le_held s rpc place) hone
  by_cases hkind : place.kind = other.kind
  · cases place <;> cases other <;> first
      | rfl
      | exact congrArg _ (cell_unique hle hp hq)
      | cases hkind
  · have hboth := share_add_le_held (s := s) rpc hkind
    have hfirst := Nat.le_trans (List.count_pos_iff.mpr hp) (count_inside s place rpc)
    have hsecond := Nat.le_trans (List.count_pos_iff.mpr hq) (count_inside s other rpc)
    omega

theorem exists_place (h : Inv target [] s) (hr : rpc ∈ s.issued) :
    ∃ place, rpc ∈ s.inside place := by
  have hcount := h.counted rpc
  have hpos := List.count_pos_iff.mpr hr
  rw [← hcount, List.count_nil, Nat.add_zero] at hpos
  have hcell : ∀ {α : Type} {xs : List α} {f : α → List Rpc}, 0 < Census.held f rpc xs →
      ∃ i : Nat, rpc ∈ xs[i]?.elim [] f := by
    intro α xs f hheld
    obtain ⟨x, hx, hmem⟩ := held_pos.mp hheld
    obtain ⟨i, hi⟩ := List.mem_iff_getElem?.mp hx
    exact ⟨i, by rwa [hi]⟩
  by_cases hcalls : 0 < Census.held Call.rpcs rpc s.calls
  · obtain ⟨i, hi⟩ := hcell hcalls
    exact ⟨.call i, hi⟩
  by_cases hqueue : 0 < Census.held Request.rpcs rpc s.queue
  · obtain ⟨i, hi⟩ := hcell hqueue
    exact ⟨.queued i, hi⟩
  by_cases hpending : 0 < Census.held PendingConnection.requests rpc s.pending
  · obtain ⟨i, hi⟩ := hcell hpending
    exact ⟨.pending i, hi⟩
  by_cases htasks : 0 < Census.held Connection.rpcs rpc s.tasks
  · obtain ⟨i, hi⟩ := hcell htasks
    exact ⟨.connection i, hi⟩
  by_cases hresolved : 0 < s.resolved.count rpc
  · exact ⟨.resolved, List.count_pos_iff.mp hresolved⟩
  · refine ⟨.runner, List.count_pos_iff.mp ?_⟩
    simp only [State.held] at hpos
    change 0 < s.runner.rpcs.count rpc
    omega

theorem issued_of_inside (h : Inv target [] s) (hr : rpc ∈ s.inside place) :
    rpc ∈ s.issued ∧ (s.inside place).count rpc = 1 := by
  have hpos := List.count_pos_iff.mpr hr
  have hle := Nat.le_trans (count_inside s place rpc) (share_le_held s rpc place)
  have hone := h.held_le_one rpc
  have hcount := h.counted rpc
  rw [List.count_nil, Nat.add_zero] at hcount
  exact ⟨List.count_pos_iff.mp (by omega), by omega⟩

theorem own (h : Inv target [] s) (hr : rpc ∈ s.inside place) :
    ∀ dc ∈ s.dcId place, target rpc = dc := by
  intro dc hdc
  cases place with
  | call i =>
    obtain ⟨call, hcall, hmem⟩ := mem_cell hr
    have hsound := h.calls call (List.mem_of_getElem? hcall)
    simp only [State.dcId, hcall, Option.map_some, Option.mem_some_iff] at hdc
    subst hdc
    cases call with
    | opened => exact List.mem_singleton.mp hmem ▸ hsound
    | routed => exact List.mem_singleton.mp hmem ▸ hsound.1
    | unrouted => exact List.mem_singleton.mp hmem ▸ hsound
  | queued i =>
    obtain ⟨q, hq, hmem⟩ := mem_cell hr
    have hsound := h.queue q (List.mem_of_getElem? hq)
    simp only [State.dcId, hq, Option.bind_some] at hdc
    cases q with
    | invoke =>
      cases hdc
      exact List.mem_singleton.mp hmem ▸ hsound
    | disconnect => cases hdc
    | quit => cases hdc
  | runner =>
    have hsound := h.runner
    simp only [State.inside] at hr
    simp only [State.dcId] at hdc
    cases hrunner : s.runner with
    | waiting =>
      rw [hrunner] at hdc
      cases hdc
    | received =>
      rw [hrunner] at hdc hr hsound
      cases hdc
      exact List.mem_singleton.mp hr ▸ hsound
    | sending =>
      rw [hrunner] at hdc hr hsound
      cases hdc
      exact List.mem_singleton.mp hr ▸ hsound.1
    | stopping =>
      rw [hrunner] at hdc
      cases hdc
  | pending i =>
    obtain ⟨p, hp, hmem⟩ := mem_cell hr
    simp only [State.dcId, hp, Option.map_some, Option.mem_some_iff] at hdc
    exact (h.pending p (List.mem_of_getElem? hp) rpc hmem).trans hdc
  | connection i =>
    obtain ⟨c, hc, hmem⟩ := mem_cell hr
    simp only [State.dcId, hc, Option.map_some, Option.mem_some_iff] at hdc
    exact ((h.tasks c (List.mem_of_getElem? hc)).own rpc hmem).trans hdc
  | resolved => cases hdc

end Inv

/-- In every run of a pool, a call that has been issued is in one place and one only, in which it is
once: with the handle that makes it, in the queue of the pool, with the runner, in a group that waits for
its connection, with a connection, or resolved; and what is in a place is for its datacenter. -/
theorem request_in_one_place (hrun : Path (Step target) (.init parked) as s) (rpc : Rpc) :
    (rpc ∈ s.issued → ∃! place, rpc ∈ s.inside place) ∧
      ∀ place, rpc ∈ s.inside place → rpc ∈ s.issued ∧ (s.inside place).count rpc = 1 ∧
        ∀ dc ∈ s.dcId place, target rpc = dc := by
  have h := Inv.reach hrun
  refine ⟨fun hr => ?_, fun place hr => ?_⟩
  · obtain ⟨place, hplace⟩ := h.exists_place hr
    exact ⟨place, hplace, fun other hother => h.place_unique hother hplace⟩
  · obtain ⟨hissued, hcount⟩ := h.issued_of_inside hr
    exact ⟨hissued, hcount, h.own hr⟩

/-- A pool that has set up a connection for two calls and routed a third to it. -/
def served : State :=
  { State.init false with
    routes := ⟨[(2, 0)], [], false, false⟩
    connections := [⟨2, 0⟩]
    setups := [⟨2, some .connected, false, true⟩]
    tasks := [⟨2, [3, 5], [1], .running, false, false⟩]
    issued := [1, 3, 5] }

def serving : List Action :=
  [.invoke 1, .lookup 0, .send 0, .invoke 3, .lookup 0, .send 0, .receive, .route, .receive, .route,
    .setup 0 .connected, .joinSetup 0, .task 0 .take, .invoke 5, .lookup 0, .send 0]

theorem path_served : Path (Step fun _ => 2) (.init false) serving served :=
  path_of_run (by decide)

theorem served_in_one_place : ∃! place, 5 ∈ served.inside place :=
  (request_in_one_place path_served 5).1 (by decide)

/-- Once the queue of a connection has accepted a call, it is never anywhere else: it stays with that
connection until it is resolved, and what is resolved stays so. -/
theorem accepted_stays (hrun : Path (Step target) (.init parked) as s)
    (hrest : Path (Step target) s bs t)
    (hr : rpc ∈ s.inside (.connection i) ∨ rpc ∈ s.inside .resolved) :
    ∃! place, rpc ∈ t.inside place ∧ (place = .connection i ∨ place = .resolved) := by
  have hstart := Inv.reach hrun
  obtain ⟨h, hkept⟩ := hstart.run hrest
  have hplace : ∃ place, rpc ∈ t.inside place ∧ (place = .connection i ∨ place = .resolved) := by
    rcases hr with hr | hr
    · obtain ⟨c, hc, hmem⟩ := mem_cell hr
      obtain ⟨c', hc', -, hmoved⟩ := hkept.tasks i c hc
      rcases hmoved rpc hmem with hmem' | hmem'
      · exact ⟨.connection i, by simpa [State.inside, hc'] using hmem', Or.inl rfl⟩
      · exact ⟨.resolved, hmem', Or.inr rfl⟩
    · exact ⟨.resolved, hkept.resolved rpc hr, Or.inr rfl⟩
  obtain ⟨place, hmem, hkind⟩ := hplace
  exact ⟨place, ⟨hmem, hkind⟩, fun other hother => h.place_unique hother.1 hmem⟩

/-- The pool of `served` after the sender of its connection has answered a call and failed. -/
def failed : State :=
  { served with tasks := [⟨2, [3, 5], [], .draining, false, false⟩], resolved := [1] }

theorem served_stays : ∃! place,
    3 ∈ failed.inside place ∧ (place = .connection 0 ∨ place = .resolved) :=
  have hrest : Path (Step fun _ => 2) served [.task 0 (.answer 1), .task 0 .fail, .task 0 .close]
      failed := path_of_run (by decide)
  accepted_stays path_served hrest (Or.inl (by decide))

/-- In every run, a route of the pool leads to a connection of its own datacenter, and a datacenter for
which a disconnect is on its way has none; when the pool is stopping, none has. -/
theorem routes_lead_home (hrun : Path (Step target) (.init parked) as s) :
    (∀ e ∈ s.routes.entries, (∃ c, s.tasks[e.2]? = some c ∧ c.dcId = e.1) ∧
      e.1 ∉ s.departing ∧ Request.disconnect e.1 ∉ s.queue) ∧
    (s.routes.stopping = true → s.routes.entries = []) := by
  have h := Inv.reach hrun
  refine ⟨fun e he => ⟨h.entries e he, ?_⟩, h.routes.stopped⟩
  have hnone := h.begun e.1
  rw [h.routes.blocked e he] at hnone
  refine ⟨fun hmem => ?_, fun hmem => ?_⟩
  · have := List.count_pos_iff.mpr hmem
    omega
  · have := (List.countP_pos_iff (p := Request.disconnects e.1)).mpr ⟨_, hmem, decide_eq_true rfl⟩
    omega

/-- Calls to two datacenters are served, then the second one is disconnected and the pool is quit. -/
def parting : List Action :=
  [.invoke 1, .lookup 0, .send 0, .receive, .route, .setup 0 .connected, .joinSetup 0, .invoke 2,
    .lookup 0, .send 0, .receive, .route, .setup 1 .connected, .joinSetup 1, .disconnect 4]

theorem parting_leads_home :
    ∃ s t, Path (Step fun rpc => if rpc = 1 then 2 else 4) (.init false) parting s ∧
      Path (Step fun rpc => if rpc = 1 then 2 else 4) s [.sendDisconnect 0, .quit] t ∧
      s.departing = [4] ∧ s.routes.entries = [(2, 0)] ∧ (∃ c, s.tasks[0]? = some c ∧ c.dcId = 2) ∧
      Request.disconnect 2 ∉ s.queue ∧ t.queue = [.disconnect 4] ∧ t.routes.entries = [] := by
  obtain ⟨s, t, hrun, hrest, hdeparting, hentries, hstopping, hqueue⟩ : ∃ s t,
      Path (Step fun rpc => if rpc = 1 then 2 else 4) (.init false) parting s ∧
      Path (Step fun rpc => if rpc = 1 then 2 else 4) s [.sendDisconnect 0, .quit] t ∧
      s.departing = [4] ∧ s.routes.entries = [(2, 0)] ∧ t.routes.stopping = true ∧
      t.queue = [.disconnect 4] :=
    ⟨_, _, path_of_run rfl, path_of_run rfl, rfl, rfl, rfl, rfl⟩
  obtain ⟨hhome, -, hnone⟩ := (routes_lead_home hrun).1 (2, 0) (by simp [hentries])
  exact ⟨s, t, hrun, hrest, hdeparting, hentries, hhome, hnone, hqueue,
    (routes_lead_home (hrun.append hrest)).2 hstopping⟩

/-- In every run, no two groups wait for one datacenter, and until the runner leaves its loop each group
waits for a setup of its datacenter that nobody has aborted and whose end is still to be seen. -/
theorem groups_wait_for_setups (hrun : Path (Step target) (.init parked) as s) :
    (s.pending.map (·.dcId)).Nodup ∧
      (s.runner.active = true → ∀ p ∈ s.pending, ∃ u, s.setups[p.setup]? = some u ∧
        u.dcId = p.dcId ∧ u.aborted = false ∧ u.joined = false) :=
  ⟨(Inv.reach hrun).single, (Inv.reach hrun).waited⟩

/-- A pool that is setting up a connection for a call. -/
def starting : State :=
  { State.init false with
    setups := [⟨2, none, false, false⟩]
    pending := [⟨2, [1], 0⟩]
    issued := [1] }

theorem starting_waits : ∃ u, starting.setups[0]? = some u ∧ u.dcId = 2 ∧ u.aborted = false ∧
    u.joined = false :=
  have hrun : Path (Step fun _ => 2) (.init false)
      [.invoke 1, .lookup 0, .send 0, .receive, .route] starting := path_of_run (by decide)
  (groups_wait_for_setups hrun).2 rfl ⟨2, [1], 0⟩ (by decide)

end Grammers.SenderPool
