import Grammers.SenderPool
import Mathlib.Data.List.Nodup

namespace Grammers.SenderPool

open Census LabelledPath SwapRemove

variable {target : Rpc → Int32} {s t : State} {hand more : List Rpc} {dcId : Int32} {rpc : Rpc}
  {i tx : Nat}

/-- A queue is that of a connection to the datacenter. -/
def Linked (tasks : List Connection) (tx : Nat) (dcId : Int32) : Prop :=
  ∃ c, tasks[tx]? = some c ∧ c.dcId = dcId

def Call.Sound (target : Rpc → Int32) (tasks : List Connection) : Call → Prop
  | .opened dcId rpc | .unrouted dcId rpc => target rpc = dcId
  | .routed dcId rpc tx => target rpc = dcId ∧ Linked tasks tx dcId

def Request.Sound (target : Rpc → Int32) : Request → Prop
  | .invoke dcId rpc => target rpc = dcId
  | .disconnect _ | .quit => True

def Request.disconnects (dcId : Int32) : Request → Bool
  | .disconnect id => id = dcId
  | .invoke _ _ | .quit => false

def Runner.Sound (target : Rpc → Int32) (tasks : List Connection) : Runner → Prop
  | .received dcId rpc => target rpc = dcId
  | .sending dcId rpc tx => target rpc = dcId ∧ Linked tasks tx dcId
  | .waiting | .stopping _ _ => True

def Runner.active : Runner → Bool
  | .stopping _ _ => false
  | .waiting | .received _ _ | .sending _ _ _ => true

structure Connection.Sound (target : Rpc → Int32) (c : Connection) : Prop where
  wf : c.Wf
  own : ∀ r ∈ c.rpcs, target r = c.dcId

/-- The task that a group waits for has not been aborted, and its end has not been seen. -/
def Waited (setups : List Setup) (p : PendingConnection) : Prop :=
  ∃ u, setups[p.setup]? = some u ∧ u.dcId = p.dcId ∧ u.aborted = false ∧ u.joined = false

/-- What has been done of the end. -/
structure Progress (stopping queueClosed : Bool) (queue : List Request)
    (pending : List PendingConnection) (connections : List ConnectionInfo) (todo : List Cleanup) :
    Prop where
  order : todo ∈ shutdown.tails ++ dropped.tails
  routes : Cleanup.closeRoutes ∉ todo → stopping = true
  closed : Cleanup.closeQueue ∉ todo → queueClosed = true
  drained : Cleanup.drainQueue ∉ todo → queueClosed = true ∧ queue = []
  cleared : Cleanup.clearPending ∉ todo → pending = []
  unlinked : Cleanup.clearConnections ∉ todo → connections = []

def State.held (s : State) (r : Rpc) : Nat :=
  Census.held Call.rpcs r s.calls + Census.held Request.rpcs r s.queue + s.runner.rpcs.count r +
    Census.held PendingConnection.requests r s.pending + Census.held Connection.rpcs r s.tasks +
      s.resolved.count r

/-- The invariant of a pool whose calls are all in their places, but for those at hand. -/
structure Inv (target : Rpc → Int32) (hand : List Rpc) (s : State) : Prop where
  fresh : s.issued.Nodup
  counted : ∀ r, s.held r + hand.count r = s.issued.count r
  calls : ∀ c ∈ s.calls, c.Sound target s.tasks
  queue : ∀ q ∈ s.queue, q.Sound target
  runner : s.runner.Sound target s.tasks
  pending : ∀ p ∈ s.pending, ∀ r ∈ p.requests, target r = p.dcId
  single : (s.pending.map (·.dcId)).Nodup
  waited : s.runner.active = true → ∀ p ∈ s.pending, Waited s.setups p
  setups : ∀ u ∈ s.setups, u.outcome = some .cancelled → u.aborted = true
  tasks : ∀ c ∈ s.tasks, c.Sound target
  connections : ∀ k ∈ s.connections, Linked s.tasks k.tx k.dcId
  entries : ∀ e ∈ s.routes.entries, Linked s.tasks e.2 e.1
  routes : s.routes.Wf
  begun : ∀ dc, s.departing.count dc + s.queue.countP (Request.disconnects dc) ≤
    RouteCache.total dc s.routes.disconnecting
  opened : s.runner.active = true → s.queueClosed = false
  staged : ∀ failed todo, s.runner = .stopping failed todo →
    Progress s.routes.stopping s.queueClosed s.queue s.pending s.connections todo

/-- What no step takes back: a connection keeps its datacenter and its calls until they are resolved,
and what is resolved stays so. -/
structure Kept (s t : State) : Prop where
  tasks : ∀ (i : Nat) (c : Connection), s.tasks[i]? = some c → ∃ c', t.tasks[i]? = some c' ∧
    c'.dcId = c.dcId ∧ ∀ r ∈ c.rpcs, r ∈ c'.rpcs ∨ r ∈ t.resolved
  resolved : ∀ r ∈ s.resolved, r ∈ t.resolved
  issued : ∀ r ∈ s.issued, r ∈ t.issued

namespace Kept

theorem refl (s : State) : Kept s s :=
  ⟨fun _ c hc => ⟨c, hc, rfl, fun _ hr => Or.inl hr⟩, fun _ hr => hr, fun _ hr => hr⟩

theorem trans {u : State} (h : Kept s t) (h' : Kept t u) : Kept s u where
  tasks i c hc := by
    obtain ⟨c', hc', hdc, hrpcs⟩ := h.tasks i c hc
    obtain ⟨c'', hc'', hdc', hrpcs'⟩ := h'.tasks i c' hc'
    refine ⟨c'', hc'', hdc'.trans hdc, fun r hr => ?_⟩
    rcases hrpcs r hr with hr | hr
    · exact hrpcs' r hr
    · exact Or.inr (h'.resolved r hr)
  resolved r hr := h'.resolved r (h.resolved r hr)
  issued r hr := h'.issued r (h.issued r hr)

theorem frame (htasks : t.tasks = s.tasks) (hresolved : s.resolved <+: t.resolved)
    (hissued : s.issued <+: t.issued) : Kept s t where
  tasks _ c hc := ⟨c, htasks ▸ hc, rfl, fun _ hr => Or.inl hr⟩
  resolved _ hr := hresolved.subset hr
  issued _ hr := hissued.subset hr

theorem of_same (htasks : t.tasks = s.tasks) (hresolved : t.resolved = s.resolved)
    (hissued : t.issued = s.issued) : Kept s t :=
  frame htasks (hresolved ▸ List.prefix_rfl) (hissued ▸ List.prefix_rfl)

theorem resolve (s : State) (rpcs : List Rpc) : Kept s (s.resolve rpcs) :=
  frame rfl (List.prefix_append _ _) List.prefix_rfl

theorem linked (h : Kept s t) (hl : Linked s.tasks tx dcId) : Linked t.tasks tx dcId := by
  obtain ⟨c, hc, rfl⟩ := hl
  obtain ⟨c', hc', hdc, -⟩ := h.tasks tx c hc
  exact ⟨c', hc', hdc⟩

end Kept

theorem Call.Sound.mono (hkept : Kept s t) {c : Call} (h : c.Sound target s.tasks) :
    c.Sound target t.tasks := by
  cases c with
  | opened => exact h
  | routed => exact ⟨h.1, hkept.linked h.2⟩
  | unrouted => exact h

theorem Runner.Sound.mono (hkept : Kept s t) {runner : Runner} (h : runner.Sound target s.tasks) :
    runner.Sound target t.tasks := by
  cases runner with
  | sending => exact ⟨h.1, hkept.linked h.2⟩
  | received => exact h
  | waiting => trivial
  | stopping => trivial

namespace Inv

theorem init (parked : Bool) : Inv target [] (.init parked) where
  fresh := List.nodup_nil
  counted _ := rfl
  calls := by simp [State.init]
  queue := by simp [State.init]
  runner := trivial
  pending := by simp [State.init]
  single := List.nodup_nil
  waited := by simp [State.init]
  setups := by simp [State.init]
  tasks := by simp [State.init]
  connections := by simp [State.init]
  entries := by simp [State.init, RouteCache.init]
  routes := ⟨by simp [State.init, RouteCache.init], by simp [State.init, RouteCache.init],
    fun _ => rfl⟩
  begun dc := by simp [State.init]
  opened _ := rfl
  staged := by simp [State.init]

/-- Calls go to other places, or come to hand. -/
theorem setCalls (h : Inv target hand s) {calls : List Call}
    (hsound : ∀ c ∈ calls, c.Sound target s.tasks)
    (hcount : ∀ r, Census.held Call.rpcs r calls + more.count r =
      Census.held Call.rpcs r s.calls + hand.count r) :
    Inv target more { s with calls := calls } :=
  { h with
    calls := hsound
    counted := fun r => by
      have := h.counted r
      have := hcount r
      simp only [State.held] at *
      omega }

theorem setTasks (h : Inv target hand s) {tasks : List Connection}
    (hkept : Kept s { s with tasks := tasks }) (hsound : ∀ c ∈ tasks, c.Sound target)
    (hcount : ∀ r, Census.held Connection.rpcs r tasks + more.count r =
      Census.held Connection.rpcs r s.tasks + hand.count r) :
    Inv target more { s with tasks := tasks } :=
  { h with
    calls := fun c hc => (h.calls c hc).mono hkept
    runner := h.runner.mono hkept
    tasks := hsound
    connections := fun k hk => hkept.linked (h.connections k hk)
    entries := fun e he => hkept.linked (h.entries e he)
    counted := fun r => by
      have := h.counted r
      have := hcount r
      simp only [State.held] at *
      omega }

theorem resolve {rpcs : List Rpc} (h : Inv target (rpcs ++ hand) s) :
    Inv target hand (s.resolve rpcs) :=
  { h with
    counted := fun r => by
      have := h.counted r
      simp only [State.held, State.resolve, List.count_append] at *
      omega }

/-- Groups change, and so do the tasks that they wait for. -/
theorem setPending (h : Inv target hand s) {pending : List PendingConnection} {setups : List Setup}
    (hown : ∀ p ∈ pending, ∀ r ∈ p.requests, target r = p.dcId)
    (hsingle : (pending.map (·.dcId)).Nodup)
    (hwaited : s.runner.active = true → ∀ p ∈ pending, Waited setups p)
    (hsetups : ∀ u ∈ setups, u.outcome = some .cancelled → u.aborted = true)
    (hstaged : s.pending = [] → s.runner.active = false → pending = [])
    (hcount : ∀ r, Census.held PendingConnection.requests r pending + more.count r =
      Census.held PendingConnection.requests r s.pending + hand.count r) :
    Inv target more { s with pending := pending, setups := setups } :=
  { h with
    pending := hown
    single := hsingle
    waited := hwaited
    setups := hsetups
    counted := fun r => by
      have := h.counted r
      have := hcount r
      simp only [State.held] at *
      omega
    staged := fun failed todo hrunner =>
      { h.staged failed todo hrunner with
        cleared := fun hc => hstaged ((h.staged failed todo hrunner).cleared hc)
          (by rw [hrunner]; rfl) } }

end Inv

end Grammers.SenderPool
