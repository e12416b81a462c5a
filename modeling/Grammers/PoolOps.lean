import Grammers.PoolInvariant

namespace Grammers.SenderPool

open Census LabelledPath SwapRemove

variable {target : Rpc → Int32} {s t : State} {hand more : List Rpc} {dcId : Int32} {rpc : Rpc}
  {i tx : Nat} {c c' : Connection} {out : List Rpc}

theorem count_take (h : s.calls[i]? = some call) (r : Rpc) :
    Census.held Call.rpcs r (s.calls.eraseIdx i) + (call.rpcs ++ hand).count r =
      Census.held Call.rpcs r s.calls + hand.count r := by
  have := held_eraseIdx (f := Call.rpcs) (r := r) h
  rw [List.count_append]
  omega

namespace Kept

/-- A connection changes: what it loses is resolved. -/
theorem set (hc : s.tasks[i]? = some c) (hdc : c'.dcId = c.dcId)
    (hr : ∀ r ∈ c.rpcs, r ∈ c'.rpcs ∨ r ∈ out) :
    Kept s (State.resolve { s with tasks := s.tasks.set i c' } out) where
  tasks j d hd := by
    by_cases hij : i = j
    · subst hij
      obtain rfl : c = d := Option.some.inj (hc.symm.trans hd)
      refine ⟨c', List.getElem?_set_self (List.getElem?_eq_some_iff.mp hc).1, hdc, fun r hmem => ?_⟩
      rcases hr r hmem with h | h
      · exact Or.inl h
      · exact Or.inr (List.mem_append_right _ h)
    · exact ⟨d, (List.getElem?_set_ne hij).trans hd, rfl, fun _ h => Or.inl h⟩
  resolved _ hr := List.mem_append_left _ hr
  issued _ hr := hr

theorem append (s : State) (c : Connection) : Kept s { s with tasks := s.tasks ++ [c] } where
  tasks i d hd := ⟨d, by
    rw [List.getElem?_append_left (List.getElem?_eq_some_iff.mp hd).1]
    exact hd, rfl, fun _ h => Or.inl h⟩
  resolved _ hr := hr
  issued _ hr := hr

theorem mapIdx {f : Nat → Connection → Connection} (hdc : ∀ i c, (f i c).dcId = c.dcId)
    (hr : ∀ i c, (f i c).rpcs = c.rpcs) : Kept s { s with tasks := s.tasks.mapIdx f } where
  tasks i c hc := ⟨f i c, by rw [List.getElem?_mapIdx, hc]; rfl, hdc i c,
    fun r h => Or.inl ((hr i c).symm ▸ h)⟩
  resolved _ hr := hr
  issued _ hr := hr

end Kept

theorem enqueue_eq_some (h : s.enqueue tx rpc = some t) : ∃ c, s.tasks[tx]? = some c ∧
    c.closed = false ∧ t = { s with tasks := s.tasks.set tx (c.push rpc) } := by
  unfold State.enqueue at h
  split at h
  next c hc =>
    split at h
    next => cases h
    next hopen =>
      cases h
      exact ⟨c, hc, by simpa using hopen, rfl⟩
  next => cases h

namespace Inv

/-- A call at hand is pushed to the queue of a connection to its datacenter. -/
theorem push (h : Inv target (rpc :: hand) s) (hc : s.tasks[tx]? = some c)
    (hopen : c.closed = false) (hown : target rpc = c.dcId) :
    Inv target hand { s with tasks := s.tasks.set tx (c.push rpc) } ∧
      Kept s { s with tasks := s.tasks.set tx (c.push rpc) } := by
  have hsound := h.tasks c (List.mem_of_getElem? hc)
  have hkept : Kept s { s with tasks := s.tasks.set tx (c.push rpc) } := by
    have hset : Kept s (State.resolve { s with tasks := s.tasks.set tx (c.push rpc) } []) := by
      refine Kept.set hc rfl fun r hr => Or.inl ?_
      rcases List.mem_append.mp hr with hr | hr
      · exact List.mem_append_left _ (List.mem_append_left _ hr)
      · exact List.mem_append_right _ hr
    simpa only [State.resolve, List.append_nil] using hset
  refine ⟨h.setTasks hkept (fun d hd => ?_) fun r => ?_, hkept⟩
  · rcases List.mem_or_eq_of_mem_set hd with hd | rfl
    · exact h.tasks d hd
    · refine ⟨c.push_wf hsound.wf hopen rpc, fun r hr => ?_⟩
      have hpos := List.count_pos_iff.mpr hr
      rw [c.count_push] at hpos
      by_cases hmem : r ∈ c.rpcs
      · exact hsound.own r hmem
      · rw [List.count_eq_zero_of_not_mem hmem, Nat.zero_add, List.count_pos_iff,
          List.mem_singleton] at hpos
        exact hpos ▸ hown
  · have hset := held_set (f := Connection.rpcs) (r := r) hc (c.push rpc)
    rw [c.count_push] at hset
    have : (rpc :: hand).count r = [rpc].count r + hand.count r := by
      rw [← List.count_append, List.singleton_append]
    omega

/-- A request at hand goes to the queue of the pool, or is dropped if that is closed. -/
theorem request {q : Request} (h : Inv target (q.rpcs ++ hand) s) (hq : q.Sound target)
    (hbegun : ∀ dc, s.departing.count dc + (s.queue ++ [q]).countP (Request.disconnects dc) ≤
      RouteCache.total dc s.routes.disconnecting) :
    Inv target hand (s.request q) ∧ Kept s (s.request q) := by
  unfold State.request
  split
  next => exact ⟨h.resolve, Kept.resolve s q.rpcs⟩
  next hopen =>
    refine ⟨{ h with
      queue := ?_
      begun := hbegun
      staged := ?_
      counted := ?_ }, Kept.of_same rfl rfl rfl⟩
    · intro r
      have := h.counted r
      simp only [State.held, List.count_append, held_append, held_cons, held_nil] at *
      omega
    · exact List.forall_mem_append.mpr ⟨h.queue, List.forall_mem_singleton.mpr hq⟩
    · intro failed todo hrunner
      have hs := h.staged failed todo hrunner
      exact { hs with drained := fun hd => absurd (hs.drained hd).1 hopen }

/-- A group changes its calls. -/
theorem setGroup (h : Inv target hand s) (hactive : s.runner.active = true) {p : PendingConnection}
    {k : Nat} (hk : s.pending[k]? = some p) {requests : List Rpc}
    (hown : ∀ r ∈ requests, target r = p.dcId)
    (hcount : ∀ r, requests.count r + more.count r = p.requests.count r + hand.count r) :
    Inv target more { s with pending := s.pending.set k { p with requests := requests } } := by
  have hmem := List.mem_of_getElem? hk
  refine h.setPending ?_ ?_ ?_ h.setups ?_ fun r => ?_
  · intro q hq
    rcases List.mem_or_eq_of_mem_set hq with hq | rfl
    · exact h.pending q hq
    · exact hown
  · have hsame : (s.pending.set k { p with requests := requests }).map (·.dcId) =
        s.pending.map (·.dcId) := by
      rw [List.map_set]
      obtain ⟨hlt, hval⟩ := List.getElem?_eq_some_iff.mp hk
      refine List.ext_getElem? fun j => ?_
      by_cases hkj : k = j
      · subst hkj
        simp [hlt, hval]
      · rw [List.getElem?_set_ne hkj]
    rw [hsame]
    exact h.single
  · intro _ q hq
    rcases List.mem_or_eq_of_mem_set hq with hq | rfl
    · exact h.waited hactive q hq
    · exact h.waited hactive p hmem
  · intro hnil
    rw [hnil] at hmem
    cases hmem
  · have hset := held_set (f := PendingConnection.requests) (r := r) hk
      { p with requests := requests }
    have := hcount r
    simp only at hset
    omega

theorem startSetup (h : Inv target (rpc :: hand) s) (hown : target rpc = dcId)
    (hactive : s.runner.active = true) :
    Inv target hand (s.startSetup dcId rpc) ∧ Kept s (s.startSetup dcId rpc) := by
  have hhand : ∀ r, (rpc :: hand).count r = [rpc].count r + hand.count r := fun r => by
    rw [← List.count_append, List.singleton_append]
  unfold State.startSetup
  split
  next k p hp =>
    obtain ⟨hk, hdc⟩ := position_eq_some hp
    refine ⟨h.setGroup hactive hk ?_ fun r => ?_, Kept.of_same rfl rfl rfl⟩
    · refine List.forall_mem_append.mpr ⟨h.pending p (List.mem_of_getElem? hk),
        List.forall_mem_singleton.mpr ?_⟩
      rw [hown]
      exact (of_decide_eq_true hdc).symm
    · have := hhand r
      rw [List.count_append]
      omega
  next hnone =>
    have hne := position_eq_none hnone
    refine ⟨h.setPending ?_ ?_ ?_ ?_ ?_ fun r => ?_, Kept.of_same rfl rfl rfl⟩
    · exact List.forall_mem_append.mpr ⟨h.pending, by simpa using hown⟩
    · rw [List.map_append]
      refine List.nodup_append.mpr ⟨h.single, List.nodup_singleton _, ?_⟩
      rintro dc hdc _ hlast rfl
      obtain ⟨p, hp, rfl⟩ := List.mem_map.mp hdc
      exact absurd (hne p hp) (by simpa using hlast)
    · intro _
      refine List.forall_mem_append.mpr ⟨fun p hp => ?_, List.forall_mem_singleton.mpr ?_⟩
      · obtain ⟨u, hu, hrest⟩ := h.waited hactive p hp
        refine ⟨u, ?_, hrest⟩
        rw [List.getElem?_append_left (List.getElem?_eq_some_iff.mp hu).1]
        exact hu
      · exact ⟨_, List.getElem?_concat_length, rfl, rfl, rfl⟩
    · exact List.forall_mem_append.mpr ⟨h.setups, by simp⟩
    · intro _ hstopped
      rw [hactive] at hstopped
      cases hstopped
    · have := hhand r
      simp only [held_append, held_cons, held_nil]
      omega

/-- Groups go away, among them all that wait for the setup `i`, which then changes. -/
theorem leaveSetup (h : Inv target hand s) {pending : List PendingConnection}
    {setups : List Setup} (i : Nat) (hsub : ∀ p ∈ pending, p ∈ s.pending ∧ p.setup ≠ i)
    (hsingle : (pending.map (·.dcId)).Nodup) (hsame : ∀ j, j ≠ i → setups[j]? = s.setups[j]?)
    (hsetups : ∀ u ∈ setups, u.outcome = some .cancelled → u.aborted = true)
    (hcount : ∀ r, Census.held PendingConnection.requests r pending + more.count r =
      Census.held PendingConnection.requests r s.pending + hand.count r) :
    Inv target more { s with pending := pending, setups := setups } := by
  refine h.setPending (fun p hp => h.pending p (hsub p hp).1) hsingle ?_ hsetups ?_ hcount
  · intro hactive p hp
    obtain ⟨u, hu, hrest⟩ := h.waited hactive p (hsub p hp).1
    exact ⟨u, (hsame _ (hsub p hp).2).trans hu, hrest⟩
  · intro hnil _
    refine List.eq_nil_iff_forall_not_mem.mpr fun p hp => ?_
    have := (hsub p hp).1
    rw [hnil] at this
    cases this

/-- The first group of a datacenter is its only one. -/
theorem other_group (h : Inv target hand s) {p q : PendingConnection} {k : Nat}
    (hk : s.pending[k]? = some p) (hq : q ∈ swapRemove s.pending k) :
    q ∈ s.pending ∧ q.dcId ≠ p.dcId := by
  have hperm := swapRemove_perm hk
  have hnodup : ((p :: swapRemove s.pending k).map (·.dcId)).Nodup :=
    (hperm.map (·.dcId)).nodup_iff.mpr h.single
  refine ⟨hperm.subset (List.mem_cons_of_mem _ hq), fun heq => ?_⟩
  exact (List.nodup_cons.mp hnodup).1 (List.mem_map.mpr ⟨q, hq, heq⟩)

theorem single_swapRemove (h : Inv target hand s) {p : PendingConnection} {k : Nat}
    (hk : s.pending[k]? = some p) : ((swapRemove s.pending k).map (·.dcId)).Nodup :=
  (((swapRemove_perm hk).map (·.dcId)).nodup_iff.mpr h.single).of_cons

theorem count_group {p : PendingConnection} {k : Nat} (hk : s.pending[k]? = some p) (r : Rpc) :
    Census.held PendingConnection.requests r (swapRemove s.pending k) +
        (p.requests ++ hand).count r =
      Census.held PendingConnection.requests r s.pending + hand.count r := by
  have := held_swapRemove (f := PendingConnection.requests) (r := r) hk
  rw [List.count_append]
  omega

theorem cancelSetup (h : Inv target hand s) (hactive : s.runner.active = true) (dcId : Int32) :
    Inv target hand (s.cancelSetup dcId) ∧ Kept s (s.cancelSetup dcId) := by
  unfold State.cancelSetup
  split
  next k p hp =>
    obtain ⟨hk, -⟩ := position_eq_some hp
    obtain ⟨u, hu, hdc, -⟩ := h.waited hactive p (List.mem_of_getElem? hk)
    refine ⟨(h.leaveSetup p.setup ?_ (h.single_swapRemove hk) ?_ ?_ (count_group hk)).resolve,
      Kept.frame rfl (List.prefix_append _ _) List.prefix_rfl⟩
    · intro q hq
      obtain ⟨hmem, hne⟩ := h.other_group hk hq
      refine ⟨hmem, fun heq => hne ?_⟩
      obtain ⟨v, hv, hdc', -⟩ := h.waited hactive q hmem
      rw [heq, hu] at hv
      cases hv
      exact hdc'.symm.trans hdc
    · intro j hj
      exact List.getElem?_modify_ne _ _ (Ne.symm hj)
    · intro v hv hcancelled
      obtain ⟨j, hj⟩ := List.mem_iff_getElem?.mp hv
      by_cases hjp : p.setup = j
      · rw [hjp, List.getElem?_modify_eq] at hj
        obtain ⟨w, -, rfl⟩ := Option.map_eq_some_iff.mp hj
        rfl
      · rw [List.getElem?_modify_ne _ _ hjp] at hj
        exact h.setups v (List.mem_of_getElem? hj) hcancelled
  next => exact ⟨h, Kept.refl s⟩

theorem connected {requests : List Rpc} (h : Inv target (requests ++ hand) s)
    (hactive : s.runner.active = true) (hown : ∀ r ∈ requests, target r = dcId) :
    Inv target hand (s.connected dcId requests) ∧ Kept s (s.connected dcId requests) := by
  let c : Connection := ⟨dcId, requests.filter (· ∉ s.gone), [], .running, false, false⟩
  have hkept := Kept.append s c
  have hlast : Linked (s.tasks ++ [c]) s.tasks.length dcId :=
    ⟨c, List.getElem?_concat_length, rfl⟩
  have hsplit : ∀ r, c.rpcs.count r + (requests.filter (· ∈ s.gone)).count r =
      requests.count r := by
    intro r
    have := (List.filter_append_perm (· ∈ s.gone) requests).count_eq r
    simp only [c, Connection.rpcs, List.append_nil, List.count_append, decide_not] at this ⊢
    omega
  have hsound : Connection.Sound target c := by
    refine ⟨⟨fun _ => rfl, fun hfin => absurd hfin Bool.false_ne_true⟩, fun r hr => ?_⟩
    rw [show c.rpcs = requests.filter (· ∉ s.gone) from List.append_nil _] at hr
    exact hown r (List.mem_filter.mp hr).1
  have htasks : Inv target (requests.filter (· ∈ s.gone) ++ hand)
      { s with tasks := s.tasks ++ [c] } := by
    refine h.setTasks hkept
      (List.forall_mem_append.mpr ⟨h.tasks, List.forall_mem_singleton.mpr hsound⟩) fun r => ?_
    have := hsplit r
    simp only [held_append, held_cons, held_nil, List.count_append]
    omega
  have hall : Inv target (requests.filter (· ∈ s.gone) ++ hand) { s with
      tasks := s.tasks ++ [c]
      routes := s.routes.publish dcId s.tasks.length
      connections := s.connections ++ [⟨dcId, s.tasks.length⟩] } := { htasks with
    connections := List.forall_mem_append.mpr
      ⟨htasks.connections, List.forall_mem_singleton.mpr hlast⟩
    entries := fun e he => by
      rcases RouteCache.mem_publish he with he | rfl
      · exact htasks.entries e he
      · exact hlast
    routes := h.routes.publish dcId s.tasks.length
    begun := fun dc => by
      rw [RouteCache.disconnecting_publish]
      exact h.begun dc
    staged := fun failed todo hrunner => by
      rw [show s.runner = .stopping failed todo from hrunner] at hactive
      cases hactive }
  exact ⟨hall.resolve, hkept.trans (Kept.frame rfl (List.prefix_append _ _) List.prefix_rfl)⟩

end Inv

end Grammers.SenderPool
