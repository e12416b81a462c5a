import Grammers.BoxChannelOps

namespace Grammers

open SortedSearch StableSort LabelledPath WorkQueue

/-- The calls that can change a message box. -/
inductive Op
  | processUpdates (updates : UpdatesLike)
  | takeReleasedUpdates
  | checkDeadlines
  | setState (state : ServerState)
  | trySetChannelState (id : Int) (pts : Int32)
  | applyDifference (difference : Difference)
  | tryApplyDifference (difference : Difference)
  | applyChannelDifference (difference : ChannelDifference)
  | tryApplyChannelDifference (difference : ChannelDifference)
  | deferChannelDifference (retryAfter : Duration)
  | tryExhaustChannelGrace
  | channelDifferenceAccessible
  | retryChannelWithoutDelay (channelId : Int)
  | endChannelDifference (reason : PrematureEndReason)
  | discardAccountState

/-- The state a call leaves, also when it reports a gap. -/
def settled : Except Exit MessageBoxes → Except Panic MessageBoxes
  | .ok s => .ok s
  | .error (.gap s) => .ok s
  | .error (.panic reason) => .error reason

def outcome {β : Type} (result : Except Exit (MessageBoxes × β)) : Except Panic MessageBoxes :=
  settled (result.map Prod.fst)

def Op.exec (op : Op) (s : MessageBoxes) (now : Instant) : Except Panic MessageBoxes :=
  match op with
  | .processUpdates us => outcome (s.processUpdates us now)
  | .takeReleasedUpdates => outcome (s.takeReleasedUpdates now)
  | .checkDeadlines => .ok (s.checkDeadlines now).2
  | .setState state => .ok (s.setState state now)
  | .trySetChannelState id pts => .ok (s.trySetChannelState id pts now)
  | .applyDifference difference => outcome (s.applyDifference difference now)
  | .tryApplyDifference difference => outcome (s.tryApplyDifference difference now)
  | .applyChannelDifference difference => outcome (s.applyChannelDifference difference now)
  | .tryApplyChannelDifference difference => outcome (s.tryApplyChannelDifference difference now)
  | .deferChannelDifference retryAfter => settled (s.deferChannelDifference retryAfter now)
  | .tryExhaustChannelGrace => outcome s.tryExhaustChannelGrace
  | .channelDifferenceAccessible => settled s.channelDifferenceAccessible
  | .retryChannelWithoutDelay channelId => .ok (s.retryChannelWithoutDelay channelId now)
  | .endChannelDifference reason => settled (s.endChannelDifference reason now)
  | .discardAccountState => settled (s.discardAccountState now)

/-- When a call may be made: some need a ready channel, and the account state is only
set while there is none. -/
def Op.Allowed (s : MessageBoxes) : Op → Prop
  | .setState _ => s.hasPrimaryState = false
  | .applyChannelDifference _ => s.channelInDiff.isSome = true
  | .deferChannelDifference _ => s.channelInDiff.isSome = true
  | .tryExhaustChannelGrace => s.channelInDiff.isSome = true
  | .channelDifferenceAccessible => s.channelInDiff.isSome = true
  | .endChannelDifference _ => s.channelInDiff.isSome = true
  | _ => True

instance (s : MessageBoxes) : DecidablePred (Op.Allowed s)
  | .setState _ => inferInstanceAs (Decidable (s.hasPrimaryState = false))
  | .applyChannelDifference _ => inferInstanceAs (Decidable (s.channelInDiff.isSome = true))
  | .deferChannelDifference _ => inferInstanceAs (Decidable (s.channelInDiff.isSome = true))
  | .tryExhaustChannelGrace => inferInstanceAs (Decidable (s.channelInDiff.isSome = true))
  | .channelDifferenceAccessible => inferInstanceAs (Decidable (s.channelInDiff.isSome = true))
  | .endChannelDifference _ => inferInstanceAs (Decidable (s.channelInDiff.isSome = true))
  | .processUpdates _ => inferInstanceAs (Decidable True)
  | .takeReleasedUpdates => inferInstanceAs (Decidable True)
  | .checkDeadlines => inferInstanceAs (Decidable True)
  | .trySetChannelState _ _ => inferInstanceAs (Decidable True)
  | .applyDifference _ => inferInstanceAs (Decidable True)
  | .tryApplyDifference _ => inferInstanceAs (Decidable True)
  | .tryApplyChannelDifference _ => inferInstanceAs (Decidable True)
  | .retryChannelWithoutDelay _ => inferInstanceAs (Decidable True)
  | .discardAccountState => inferInstanceAs (Decidable True)

/-- A message box at the instant of its last call. -/
structure Config where
  now : Instant
  boxes : MessageBoxes

/-- One call, no earlier than the last. -/
structure Step (start : Config) (op : Op) (stop : Config) : Prop where
  later : start.now ≤ stop.now
  allowed : op.Allowed start.boxes
  ran : op.exec start.boxes stop.now = .ok stop.boxes

/-- Run timed calls, as long as they are allowed, in order and do not panic. -/
def runOps (config : Config) : List (Instant × Op) → Option Config
  | [] => some config
  | (now, op) :: ops =>
    if config.now ≤ now ∧ op.Allowed config.boxes then
      match op.exec config.boxes now with
      | .ok boxes => runOps ⟨now, boxes⟩ ops
      | .error _ => none
    else none

theorem path_runOps {start stop : Config} {ops : List (Instant × Op)}
    (h : runOps start ops = some stop) : Path Step start (ops.map Prod.snd) stop := by
  induction ops generalizing start with
  | nil =>
    obtain rfl := Option.some.inj h
    exact Path.nil
  | cons timed ops ih =>
    obtain ⟨now, op⟩ := timed
    simp only [runOps] at h
    split at h
    next hok =>
      split at h
      next boxes hr =>
        have hstep : Step start op ⟨now, boxes⟩ := ⟨hok.1, hok.2, hr⟩
        exact Path.cons hstep (ih h)
      next => simp at h
    next => simp at h

theorem runOps_getD {start : Config} {ops : List (Instant × Op)}
    (h : (runOps start ops).isSome = true) : runOps start ops = some ((runOps start ops).getD start) := by
  obtain ⟨stop, hs⟩ := Option.isSome_iff_exists.mp h
  rw [hs]
  rfl

theorem step_runOps {start : Config} {now : Instant} {op : Op}
    (h : (runOps start [(now, op)]).isSome = true) :
    Step start op ((runOps start [(now, op)]).getD start) := by
  obtain ⟨mid, hstep, hnil⟩ := Path.cons_iff.mp (path_runOps (runOps_getD h))
  exact Path.nil_iff.mp hnil ▸ hstep

inductive Initial : Config → Prop
  | new (now : Instant) : Initial ⟨now, .new now⟩
  | load (saved : UpdatesState) (now : Instant) : Initial ⟨now, .load saved now⟩

/-- A configuration some sequence of calls leads to. -/
def Reached (config : Config) : Prop :=
  ∃ start ops, Initial start ∧ Path Step start ops config

def Reachable (s : MessageBoxes) : Prop := ∃ now, Reached ⟨now, s⟩

namespace MessageBoxes

variable {s : MessageBoxes} {e : LiveEntry} {k : Key} {now : Instant}

theorem entry_new (now : Instant) (k : Key) : (MessageBoxes.new now).entry k = none := rfl

theorem new_good (now : Instant) : (MessageBoxes.new now).Good := by
  refine ⟨⟨List.Pairwise.nil, ?_, ⟨List.nodup_nil, ?_, rfl⟩, Nat.zero_le _, ?_⟩, ?_⟩
  · simp [entry_new]
  · intro k
    simp [MessageBoxes.new, ready, entry, lookup, binarySearchByKey, binarySearchBy, searchLoop]
  · simp [MessageBoxes.new]
  · simp [Account, entry_new]

theorem dedupEntries_spec {earlier : LiveEntry} {rest : List LiveEntry}
    (h : Ascending LiveEntry.key (earlier :: rest)) :
    SortedSearch.Sorted LiveEntry.key (dedupEntries earlier rest) ∧
      (∀ e ∈ dedupEntries earlier rest, earlier.key ≤ e.key ∧
        ∃ e' ∈ earlier :: rest, ∃ pts, e = { e' with pts := pts }) ∧
      ∀ e' ∈ earlier :: rest, ∃ e ∈ dedupEntries earlier rest, e.key = e'.key := by
  induction rest generalizing earlier with
  | nil =>
    refine ⟨List.pairwise_singleton _ _, ?_, ?_⟩
    · intro e he
      obtain rfl := List.mem_singleton.mp he
      exact ⟨le_rfl, e, by simp, e.pts, rfl⟩
    · intro e' he'
      obtain rfl := List.mem_singleton.mp he'
      exact ⟨e', by simp [dedupEntries], rfl⟩
  | cons later rest ih =>
    obtain ⟨hle, hrest⟩ := List.pairwise_cons.mp h
    obtain ⟨hle', hrest'⟩ := List.pairwise_cons.mp hrest
    rw [dedupEntries]
    split
    next hk =>
      have hasc : Ascending LiveEntry.key
          ({ earlier with pts := min earlier.pts later.pts } :: rest) :=
        List.pairwise_cons.mpr ⟨fun e he => hle e (by simp [he]), hrest'⟩
      obtain ⟨h1, h2, h3⟩ := ih hasc
      refine ⟨h1, ?_, ?_⟩
      · intro e he
        obtain ⟨hge, e', he', pts, rfl⟩ := h2 e he
        refine ⟨hge, ?_⟩
        rcases List.mem_cons.mp he' with rfl | he'
        · exact ⟨earlier, by simp, pts, rfl⟩
        · exact ⟨e', by simp [he'], pts, rfl⟩
      · intro e' he'
        rcases List.mem_cons.mp he' with heq | he'
        · obtain ⟨e, he, hke⟩ := h3 _ List.mem_cons_self
          exact ⟨e, he, heq ▸ hke⟩
        · rcases List.mem_cons.mp he' with rfl | he'
          · obtain ⟨e, he, hke⟩ := h3 _ List.mem_cons_self
            exact ⟨e, he, hke.trans hk.symm⟩
          · exact h3 e' (by simp [he'])
    next hk =>
      obtain ⟨h1, h2, h3⟩ := ih hrest
      have hlt : earlier.key < later.key := lt_of_le_of_ne (hle later (by simp)) (Ne.symm hk)
      refine ⟨List.pairwise_cons.mpr ⟨fun e he => hlt.trans_le (h2 e he).1, h1⟩, ?_, ?_⟩
      · intro e he
        rcases List.mem_cons.mp he with rfl | he
        · exact ⟨le_rfl, e, by simp, e.pts, rfl⟩
        · obtain ⟨hge, e', he', pts, hep⟩ := h2 e he
          exact ⟨hlt.le.trans hge, e', by simp [List.mem_cons.mp he'], pts, hep⟩
      · intro e' he'
        rcases List.mem_cons.mp he' with rfl | he'
        · exact ⟨e', by simp, rfl⟩
        · obtain ⟨e, he, hke⟩ := h3 e' he'
          exact ⟨e, by simp [he], hke⟩

/-- Merging duplicates of a sorted list leaves each key once, with a position of its own. -/
theorem dedupByKey_spec {es : List LiveEntry} (h : Ascending LiveEntry.key es) :
    SortedSearch.Sorted LiveEntry.key (dedupByKey es) ∧
      (∀ e ∈ dedupByKey es, ∃ e' ∈ es, ∃ pts, e = { e' with pts := pts }) ∧
      ∀ e' ∈ es, ∃ e ∈ dedupByKey es, e.key = e'.key := by
  cases es with
  | nil => exact ⟨List.Pairwise.nil, by simp [dedupByKey], by simp⟩
  | cons e es =>
    obtain ⟨h1, h2, h3⟩ := dedupEntries_spec h
    exact ⟨h1, fun e he => (h2 e he).2, h3⟩

theorem not_max_lt_noPts (a : Int32) : ¬max a noPts < noPts := by
  show ¬(if a ≤ noPts then noPts else a) < noPts
  split
  next => decide
  next h => exact fun hlt => h (Int32.le_of_lt hlt)

theorem repairCounters_pts (state : UpdatesState) : ¬(repairCounters state).pts < noPts := by
  unfold repairCounters
  split
  next => exact not_max_lt_noPts state.pts
  next hno => exact fun hlt => hno (Or.inl hlt)

/-- Repaired state has a secondary position only along with a primary one. -/
theorem repair_account (saved : UpdatesState) (h : noPts < (repair saved).qts) :
    noPts < (repair saved).pts := by
  have hpts : ¬(repairChannels (repairCounters saved)).pts < noPts := repairCounters_pts saved
  unfold repair at h ⊢
  generalize repairChannels (repairCounters saved) = state at h hpts ⊢
  unfold repairAccount at h ⊢
  split at h
  next => exact absurd h ((show ¬noPts < noPts by decide))
  next hno =>
    rw [if_neg hno]
    have hne : state.pts ≠ noPts := fun he => hno ⟨he, h⟩
    exact Int32.lt_of_le_of_ne (Int32.not_lt.mp hpts) hne.symm

theorem mem_restoredEntries {state : UpdatesState} {d : Instant} :
    e ∈ restoredEntries state d ↔
      (noPts < state.pts ∧ e = restored .common (max state.pts noPts) d) ∨
      (noPts < state.qts ∧ e = restored .secondary state.qts d) ∨
      ∃ c ∈ state.channels, 0 < c.id ∧ noPts < c.pts ∧ e = restored (.channel c.id) c.pts d := by
  simp only [restoredEntries, List.mem_append, List.mem_map, List.mem_filter, Bool.and_eq_true,
    decide_eq_true_eq, or_assoc]
  refine or_congr ?_ (or_congr ?_ ?_)
  · split <;> simp_all
  · split <;> simp_all
  · constructor
    · rintro ⟨c, ⟨hc, h1, h2⟩, rfl⟩
      exact ⟨c, hc, h1, h2, rfl⟩
    · rintro ⟨c, hc, h1, h2, rfl⟩
      exact ⟨c, ⟨hc, h1, h2⟩, rfl⟩

theorem load_entries (saved : UpdatesState) (now : Instant) :
    SortedSearch.Sorted LiveEntry.key (load saved now).entries ∧
      (∀ e ∈ (load saved now).entries, ∃ pts, e = restored e.key pts (nextUpdatesDeadline now)) ∧
      ((∃ e ∈ (load saved now).entries, e.key = .secondary) →
        ∃ e ∈ (load saved now).entries, e.key = .common) := by
  have hload : (load saved now).entries = dedupByKey (sortByKey LiveEntry.key
    (restoredEntries (repair saved) (nextUpdatesDeadline now))) := by
    simp only [load]
  rw [hload]
  generalize nextUpdatesDeadline now = d
  have hperm := sortByKey_perm LiveEntry.key (restoredEntries (repair saved) d)
  obtain ⟨h1, h2, h3⟩ := dedupByKey_spec
    (sortByKey_ascending LiveEntry.key (restoredEntries (repair saved) d))
  refine ⟨h1, ?_, ?_⟩
  · intro e he
    obtain ⟨e', he', pts, rfl⟩ := h2 e he
    refine ⟨pts, ?_⟩
    rcases mem_restoredEntries.mp (hperm.mem_iff.mp he') with ⟨_, rfl⟩ | ⟨_, rfl⟩ | ⟨c, _, _, _, rfl⟩
    · rfl
    · rfl
    · rfl
  · rintro ⟨e, he, hk⟩
    obtain ⟨e', he', pts, rfl⟩ := h2 e he
    have hqts : noPts < (repair saved).qts := by
      rcases mem_restoredEntries.mp (hperm.mem_iff.mp he') with ⟨_, rfl⟩ | ⟨hq, _⟩ | ⟨c, _, _, _, rfl⟩
      · simp [restored, LiveEntry.fresh] at hk
      · exact hq
      · simp [restored, LiveEntry.fresh] at hk
    exact h3 (restored .common (max (repair saved).pts noPts) d)
      (hperm.mem_iff.mpr (mem_restoredEntries.mpr (Or.inl ⟨repair_account saved hqts, rfl⟩)))

theorem load_entry {saved : UpdatesState} (he : (load saved now).entry k = some e) :
    ∃ pts, e = restored k pts (nextUpdatesDeadline now) := by
  obtain ⟨hs, hr, _⟩ := load_entries saved now
  obtain ⟨hm, hk⟩ := (entry_eq_some_iff hs).mp he
  exact hk ▸ hr e hm

theorem load_queue (saved : UpdatesState) (now : Instant) :
    Exact (load saved now).ready (load saved now).gettingDiffFor (load saved now).readyDiffCount := by
  obtain ⟨hs, hr, _⟩ := load_entries saved now
  have hqueue : (load saved now).gettingDiffFor = (load saved now).entries.map LiveEntry.key := by
    simp only [load]
  have hcount : (load saved now).readyDiffCount =
      ((load saved now).entries.map LiveEntry.key).length := by
    simp only [load]
  rw [hqueue, hcount]
  refine ⟨hs.nodup_keys, fun k => ?_, rfl⟩
  constructor
  · intro hk
    obtain ⟨e, he, rfl⟩ := List.mem_map.mp hk
    obtain ⟨pts, hp⟩ := hr e he
    rw [ready, entry_of_mem hs he, Option.any_some, hp]
    rfl
  · intro hready
    cases he : (load saved now).entry k with
    | none => simp [ready, he] at hready
    | some e =>
      obtain ⟨hm, hk⟩ := (entry_eq_some_iff hs).mp he
      exact List.mem_map.mpr ⟨e, hm, hk⟩

theorem load_good (saved : UpdatesState) (now : Instant) : (load saved now).Good := by
  obtain ⟨hs, _, hacc⟩ := load_entries saved now
  have hheld : (load saved now).heldUpdates = [] := by simp only [load]
  refine ⟨⟨hs, ?_, load_queue saved now, by simp [hheld], by simp [hheld]⟩, ?_⟩
  · intro k e he
    obtain ⟨pts, rfl⟩ := load_entry he
    exact LiveEntry.Ok.of_no_gap rfl (by simp [restored]) (by simp [restored, LiveEntry.fresh])
  · intro hsec
    obtain ⟨e, he⟩ := Option.isSome_iff_exists.mp hsec
    obtain ⟨e', he', hk'⟩ := hacc ⟨e, (entry_eq_some_iff hs).mp he⟩
    rw [← hk', entry_of_mem hs he']
    rfl

end MessageBoxes

open MessageBoxes in
/-- Calls keep the invariant, and the only failures left are those of a malformed dialog
handed to the unchecked path. -/
theorem Op.exec_good {op : Op} {s : MessageBoxes} (h : s.Good) (ha : op.Allowed s) (now : Instant) :
    (∃ s', op.exec s now = .ok s' ∧ s'.Good) ∨
      ∃ difference reason, op = .applyChannelDifference difference ∧
        adaptChannelDifference difference = .error (.panic reason) ∧
        op.exec s now = .error reason := by
  cases op with
  | processUpdates us =>
    left
    rcases h.processUpdatesInner us [] now with ⟨s', result, hr, h'⟩ | hr
    · exact ⟨s', by simp [Op.exec, MessageBoxes.processUpdates, hr, outcome, settled, Except.map], h'⟩
    · exact ⟨_, by simp only [Op.exec, MessageBoxes.processUpdates, hr, outcome]; rfl,
        h.tryBeginGetDiff .common now⟩
  | takeReleasedUpdates =>
    obtain ⟨s', result, hr, h'⟩ := h.takeReleasedUpdates now
    exact Or.inl ⟨s', by simp [Op.exec, hr, outcome, settled, Except.map], h'⟩
  | checkDeadlines => exact Or.inl ⟨_, rfl, h.checkDeadlines now⟩
  | setState state => exact Or.inl ⟨_, rfl, h.setState ha state now⟩
  | trySetChannelState id pts => exact Or.inl ⟨_, rfl, h.trySetChannelState id pts now⟩
  | applyDifference difference =>
    obtain ⟨s', result, hr, h'⟩ := h.applyDifference difference now
    exact Or.inl ⟨s', by simp [Op.exec, hr, outcome, settled, Except.map], h'⟩
  | tryApplyDifference difference =>
    left
    rcases tryApplyDifference_cases s difference now with hr | ⟨_, _, hr⟩
    · exact ⟨s, by simp [Op.exec, hr, outcome, settled, Except.map], h⟩
    · obtain ⟨s', result, hr', h'⟩ := h.applyDifference difference now
      exact ⟨s', by simp [Op.exec, hr, hr', outcome, settled, Except.map], h'⟩
  | applyChannelDifference difference =>
    obtain ⟨c, hc⟩ := Option.isSome_iff_exists.mp ha
    cases hd : adaptChannelDifference difference with
    | ok diff =>
      obtain ⟨s', result, hr, h'⟩ := h.applyChannelDifference hc hd now
      exact Or.inl ⟨s', by simp [Op.exec, hr, outcome, settled, Except.map], h'⟩
    | error exit =>
      cases exit with
      | panic reason =>
        refine Or.inr ⟨difference, reason, rfl, hd, ?_⟩
        simp [Op.exec, MessageBoxes.applyChannelDifference, hc, hd, bind, Except.bind, outcome, settled, Except.map]
      | gap s' => exact absurd hd (adaptChannelDifference_ne_gap difference s')
  | tryApplyChannelDifference difference =>
    left
    rcases h.tryApplyChannelDifference difference now with hr | ⟨s', result, hr, h'⟩
    · exact ⟨s, by simp [Op.exec, hr, outcome, settled, Except.map], h⟩
    · exact ⟨s', by simp [Op.exec, hr, outcome, settled, Except.map], h'⟩
  | deferChannelDifference retryAfter =>
    obtain ⟨c, hc⟩ := Option.isSome_iff_exists.mp ha
    obtain ⟨s', hr, h'⟩ := h.deferChannelDifference hc retryAfter now
    exact Or.inl ⟨s', by simp [Op.exec, hr, settled], h'⟩
  | tryExhaustChannelGrace =>
    obtain ⟨c, hc⟩ := Option.isSome_iff_exists.mp ha
    obtain ⟨s', spent, hr, h'⟩ := h.tryExhaustChannelGrace hc
    exact Or.inl ⟨s', by simp [Op.exec, hr, outcome, settled, Except.map], h'⟩
  | channelDifferenceAccessible =>
    obtain ⟨c, hc⟩ := Option.isSome_iff_exists.mp ha
    obtain ⟨s', hr, h'⟩ := h.channelDifferenceAccessible hc
    exact Or.inl ⟨s', by simp [Op.exec, hr, settled], h'⟩
  | retryChannelWithoutDelay channelId =>
    exact Or.inl ⟨_, rfl, h.retryChannelWithoutDelay channelId now⟩
  | endChannelDifference reason =>
    obtain ⟨c, hc⟩ := Option.isSome_iff_exists.mp ha
    obtain ⟨s', hr, h'⟩ := h.endChannelDifference hc reason now
    exact Or.inl ⟨s', by simp [Op.exec, hr, settled], h'⟩
  | discardAccountState =>
    obtain ⟨s', hr, h'⟩ := h.discardAccountState now
    exact Or.inl ⟨s', by simp [Op.exec, hr, settled], h'⟩

theorem Initial.good {config : Config} (h : Initial config) : config.boxes.Good := by
  cases h with
  | new now => exact MessageBoxes.new_good now
  | load saved now => exact MessageBoxes.load_good saved now

theorem Step.good {start stop : Config} {op : Op} (hstep : Step start op stop)
    (h : start.boxes.Good) : stop.boxes.Good := by
  rcases Op.exec_good h hstep.allowed stop.now with ⟨s', hr, h'⟩ | ⟨_, _, _, _, hr⟩
  · rw [hstep.ran] at hr
    exact Except.ok.inj hr ▸ h'
  · rw [hstep.ran] at hr
    simp at hr

theorem Reached.good {config : Config} (h : Reached config) : config.boxes.Good := by
  obtain ⟨start, ops, hi, hp⟩ := h
  exact hp.invariant (fun _ _ _ h hstep => hstep.good h) hi.good

theorem Reachable.good {s : MessageBoxes} (h : Reachable s) : s.Good := by
  obtain ⟨now, hr⟩ := h
  exact hr.good

theorem reachable_runOps {start : Config} {ops : List (Instant × Op)} (hi : Initial start)
    (h : (runOps start ops).isSome = true) : Reachable ((runOps start ops).getD start).boxes :=
  ⟨_, start, _, hi, path_runOps (runOps_getD h)⟩

/-- The state right after login. -/
theorem reachable_setState (state : ServerState) (now : Instant) :
    Reachable ((MessageBoxes.new now).setState state now) :=
  ⟨now, ⟨now, .new now⟩, [.setState state], .new now, Path.single ⟨le_rfl, rfl, rfl⟩⟩

end Grammers
