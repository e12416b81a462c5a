import Grammers.BoxEffect
import Grammers.BoxBookkeeping
import Grammers.WaitingLine

namespace Grammers

open StableSort LabelledPath WaitingLine

namespace MessageBoxes

variable {s s' : MessageBoxes} {k : Key} {c f : Int} {now : Instant}

/-! What the operations do to the queue of ready recoveries. -/

theorem holdChannelUpdate_queue (s : MessageBoxes) (c : Int) (u : Update) :
    (s.holdChannelUpdate c u).gettingDiffFor = s.gettingDiffFor := by
  unfold holdChannelUpdate
  split
  next => rfl
  next => rfl

theorem holdGap_queue (s : MessageBoxes) (k : Key) (gap : Option PossibleGap) :
    (s.holdGap k gap).gettingDiffFor = s.gettingDiffFor := by
  unfold holdGap
  split
  next c gap =>
    induction gap.updates generalizing s with
    | nil => rfl
    | cons u us ih =>
      rw [List.foldl_cons, ih]
      exact holdChannelUpdate_queue s c u
  next => rfl

theorem tryBeginGetDiff_queue (s : MessageBoxes) (k : Key) (now : Instant) :
    s.gettingDiffFor <+: (s.tryBeginGetDiff k now).gettingDiffFor := by
  unfold tryBeginGetDiff
  split
  next => exact List.prefix_refl _
  next =>
    split
    next => exact List.prefix_refl _
    next e he =>
      simp only
      split
      next => simp only [holdGap_queue, updateEntry, List.prefix_refl]
      next => simp only [enqueue, holdGap_queue, updateEntry, List.prefix_append]

theorem resetDeadline_queue (s : MessageBoxes) (k : Key) (d : Instant) :
    (s.resetDeadline k d).gettingDiffFor = s.gettingDiffFor := by
  simp only [resetDeadline]
  split
  next => rfl
  next => rfl

theorem setPts_queue (s : MessageBoxes) (k : Key) (pts : Int32) (now : Instant) :
    (s.setPts k pts now).gettingDiffFor = s.gettingDiffFor := by
  unfold setPts
  split
  next => rfl
  next => rfl

theorem postpone_queue (s : MessageBoxes) (k : Key) (u : Update) :
    (s.postpone k u).gettingDiffFor = s.gettingDiffFor := by
  unfold postpone
  split
  next => exact holdChannelUpdate_queue s _ u
  next => rfl

theorem admitTooLong_queue (s : MessageBoxes) (k : Key) (pts : Option Int32) (d : Instant) :
    (s.admitTooLong k pts d).gettingDiffFor = s.gettingDiffFor := by
  rcases admitTooLong_cases s k pts d with h | ⟨_, _, _, _, h⟩
  · rw [h]
  · rw [h]
    rfl

theorem checkDeadlines_queue (h : s.Inv) (now : Instant) :
    s.gettingDiffFor <+: (s.checkDeadlines now).2.gettingDiffFor := by
  unfold checkDeadlines
  split
  next => exact List.prefix_refl _
  next =>
    obtain ⟨_, hs⟩ := scanDeadlines_eq h now
    simp only [hs, List.prefix_append]

/-- Ending a recovery takes its key off the queue, if it was there. -/
theorem tryEndGetDiff_queue (h : s.Inv) (hr : s.tryEndGetDiff k now = .ok s') :
    s'.gettingDiffFor = s.gettingDiffFor.erase k := by
  have hnot : s.ready k = false → s.gettingDiffFor = s.gettingDiffFor.erase k := by
    intro hready
    refine (List.erase_of_not_mem fun hm => ?_).symm
    simp [(h.queue.mem_iff k).mp hm] at hready
  cases hp : s.isGettingDiff k with
  | false =>
    rw [tryEndGetDiff_of_not_pending hp] at hr
    obtain rfl := Except.ok.inj hr
    refine hnot ?_
    cases he : s.entry k with
    | none => simp [ready, he]
    | some e =>
      rw [isGettingDiff_of_entry he] at hp
      rw [ready_of_entry he, LiveEntry.isReady, hp, Bool.false_and]
  | true =>
    obtain ⟨e, he, hpe⟩ := entry_of_isGettingDiff hp
    unfold tryEndGetDiff at hr
    rw [he] at hr
    simp only [Option.filter, hpe, ↓reduceIte, bind, Except.bind, pure, Except.pure] at hr
    split at hr
    next => simp at hr
    next s1 hq =>
      obtain rfl := Except.ok.inj hr
      show (resetDeadline _ k _).gettingDiffFor = _
      rw [resetDeadline_queue]
      show s1.gettingDiffFor = _
      split at hq
      next hd =>
        obtain rfl := Except.ok.inj hq
        exact hnot (by rw [ready_of_entry he, LiveEntry.isReady, hd, hpe]; rfl)
      next hd =>
        have hready : s.ready k = true := by
          rw [ready_of_entry he, LiveEntry.isReady, hpe]
          simpa using hd
        rw [h.dequeue_eq hready] at hq
        obtain rfl := Except.ok.inj hq
        rfl

end MessageBoxes

variable {b : Batch} {p p' : Processing} {u : Update} {us : List Update} {s s' : MessageBoxes}
  {result : List (Update × State)} {now : Instant} {c : Int}

open MessageBoxes

theorem Processed.queue (h : Processed b p u p') :
    p.boxes.gettingDiffFor <+: p'.boxes.gettingDiffFor := by
  cases h with
  | tooLongPending => exact List.prefix_refl _
  | tooLong =>
    refine List.IsPrefix.trans ?_ (tryBeginGetDiff_queue _ _ _)
    rw [admitTooLong_queue]
  | unordered => exact List.prefix_refl _
  | forced =>
    rw [resetDeadline_queue]
  | postponed =>
    rw [postpone_queue]
  | preLogin => exact List.prefix_refl _
  | applied => exact List.prefix_refl _

theorem Processed.path_queue (h : Path (Processed b) p us p') :
    p.boxes.gettingDiffFor <+: p'.boxes.gettingDiffFor := by
  induction h with
  | nil => exact List.prefix_refl _
  | cons hp _ ih => exact hp.queue.trans ih

/-- A batch only adds recoveries behind the ones that wait. -/
theorem Batched.queue (h : Batched b s us s' result) : s.gettingDiffFor <+: s'.gettingDiffFor := by
  obtain ⟨p, hp, _, hs⟩ := h
  have hq := Processed.path_queue hp
  rcases hs with rfl | rfl
  · exact hq
  · exact hq

namespace MessageBoxes

/-- The channels whose difference is fetched before that of a given one. -/
def channelsBefore (s : MessageBoxes) (c : Int) : List Key :=
  before Key.isChannel s.gettingDiffFor (.channel c)

theorem channelInDiff_eq_some_iff :
    s.channelInDiff = some c ↔ s.gettingDiffFor.find? Key.isChannel = some (.channel c) := by
  unfold channelInDiff
  induction s.gettingDiffFor with
  | nil => simp
  | cons k queue ih =>
    rw [List.findSome?_cons, List.find?_cons]
    cases k with
    | common => exact ih
    | secondary => exact ih
    | channel id => simp [Key.isChannel]

/-- A change of the queue that leaves a ready channel with the same ones before it. -/
def Undelayed (c : Int) (s s' : MessageBoxes) : Prop :=
  .channel c ∈ s.gettingDiffFor →
    .channel c ∈ s'.gettingDiffFor ∧ s'.channelsBefore c = s.channelsBefore c

theorem Undelayed.of_isPrefix (h : s.gettingDiffFor <+: s'.gettingDiffFor) : Undelayed c s s' :=
  fun hc => ⟨h.subset hc, before_of_isPrefix h hc⟩

theorem Undelayed.trans {s'' : MessageBoxes} (h : Undelayed c s s') (h' : Undelayed c s' s'') :
    Undelayed c s s'' := by
  intro hc
  obtain ⟨hc', hb⟩ := h hc
  obtain ⟨hc'', hb'⟩ := h' hc'
  exact ⟨hc'', hb'.trans hb⟩

theorem Undelayed.tryEndGetDiff {k : Key} (h : s.Inv) (hk : k.isChannel = false)
    (hr : s.tryEndGetDiff k now = .ok s') : Undelayed c s s' := by
  have hne : k ≠ .channel c := by
    rintro rfl
    simp [Key.isChannel] at hk
  intro hc
  unfold channelsBefore
  rw [tryEndGetDiff_queue h hr]
  exact ⟨(List.mem_erase_of_ne hne.symm).mpr hc, before_erase_of_other hk hne⟩

theorem Undelayed.endAccount (h : s.Inv) (hr : s.endAccount now = .ok s') : Undelayed c s s' := by
  obtain ⟨s1, hr1, h1, _⟩ := h.tryEndGetDiff .common now
  obtain ⟨s2, hr2, _⟩ := h1.tryEndGetDiff .secondary now
  obtain rfl : s2 = s' := by simpa [MessageBoxes.endAccount, hr1, hr2, bind, Except.bind] using hr
  exact (Undelayed.tryEndGetDiff h rfl hr1).trans (Undelayed.tryEndGetDiff h1 rfl hr2)

theorem beginDifference_queue (s : MessageBoxes) (state : ServerState) (now : Instant) :
    (s.beginDifference state now).gettingDiffFor = s.gettingDiffFor := by
  rw [beginDifference, setPts_queue, setPts_queue]

theorem Undelayed.recovered (h : s.Good) {difference : Difference}
    (hr : Recovered s now difference s') : Undelayed c s s' := by
  have hbatch : ∀ {parts : DifferenceParts} {b : Batch} {us : List Update} {s1 : MessageBoxes}
      {result : List (Update × State)}, Batched b (s.beginDifference parts.state now) us s1 result →
      Undelayed c s s1 ∧ s1.Inv := by
    intro parts b us s1 result hb
    have h1 := h.beginDifference parts.state now
    refine ⟨Undelayed.of_isPrefix ?_, (hb.inv h1.toInv h1.account).1⟩
    exact beginDifference_queue s parts.state now ▸ hb.queue
  cases hr with
  | @empty date seq _ hr =>
    have h0 : Good { s with date := date, seq := seq } := h.congr rfl rfl rfl rfl
    exact Undelayed.endAccount (s := { s with date := date, seq := seq }) h0.toInv hr
  | @tooLong pts _ hr =>
    have h0 := h.setPts (k := .common) (by simp) (by simp [Key.isChannel]) pts now
    refine Undelayed.trans (.of_isPrefix ?_) (Undelayed.endAccount h0.toInv hr)
    rw [setPts_queue]
  | slice _ _ hb => exact (hbatch hb).1
  | difference _ _ hb hr =>
    obtain ⟨hu, h1⟩ := hbatch hb
    exact hu.trans (Undelayed.endAccount h1 hr)

/-- A step for the first ready channel takes it off the queue, or puts it behind. -/
def Served (f : Int) (s s' : MessageBoxes) : Prop :=
  s.gettingDiffFor.erase (.channel f) <+: s'.gettingDiffFor

theorem Served.tryEndGetDiff (h : s.Inv) {f : Int} (hr : s.tryEndGetDiff (.channel f) now = .ok s') :
    Served f s s' := by
  rw [Served, tryEndGetDiff_queue h hr]

theorem retainContiguousHeldUpdates_queue (s : MessageBoxes) (f : Int) (pts : Int32) :
    (s.retainContiguousHeldUpdates f pts).1.gettingDiffFor = s.gettingDiffFor := rfl

theorem retryChannelAt_queue (s : MessageBoxes) (k : Key) (failures : Nat) (beyond : List Update)
    (retryAt : Instant) : (s.retryChannelAt k failures beyond retryAt).gettingDiffFor =
      s.gettingDiffFor := by
  unfold retryChannelAt
  split
  next => rfl
  next => rfl

theorem Served.endChannelDifference {f : Int} (h : s.Good) (hf : s.channelInDiff = some f)
    {reason : PrematureEndReason} (hr : s.endChannelDifference reason now = .ok s') :
    Served f s s' := by
  obtain ⟨e, he, _⟩ := h.toInv.channelInDiff hf
  have hset : (s.updateEntry (.channel f) fun entry => { entry with possibleGap := none }) =
      s.setEntry { e with possibleGap := none } := updateEntry_of_entry h.sorted he rfl
  have h1 := h.clearGap he
  obtain ⟨s1, hrun, _⟩ := h1.tryEndGetDiff (.channel f) now
  have hq : Served f s s1 := Served.tryEndGetDiff h1.toInv hrun
  unfold MessageBoxes.endChannelDifference at hr
  simp only [hf, hset, hrun, bind, Except.bind, pure, Except.pure] at hr
  cases reason with
  | temporaryServerIssues =>
    simp only at hr
    split at hr
    next =>
      obtain rfl := Except.ok.inj hr
      rw [Served, scheduleChannelRetry, retryChannelAt_queue, retainContiguousHeldUpdates_queue]
      exact hq
    next =>
      obtain rfl := Except.ok.inj hr
      exact hq
  | banned =>
    obtain rfl := Except.ok.inj hr
    exact hq

theorem Served.deferChannelDifference {f : Int} (h : s.Good) (hf : s.channelInDiff = some f)
    {retryAfter : Duration} (hr : s.deferChannelDifference retryAfter now = .ok s') :
    Served f s s' := by
  obtain ⟨e, he, _⟩ := h.toInv.channelInDiff hf
  unfold MessageBoxes.deferChannelDifference at hr
  simp only [hf] at hr
  split at hr
  next =>
    have h0 : Good { s with exhaustedChannels := insert f s.exhaustedChannels } :=
      h.congr rfl rfl rfl rfl
    obtain ⟨s1, hrun, _⟩ := h0.tryEndGetDiff (.channel f) now
    have hq : Served f s s1 := Served.tryEndGetDiff h0.toInv hrun
    simp only [hrun, bind, Except.bind, pure, Except.pure] at hr
    obtain rfl := Except.ok.inj hr
    exact hq
  next =>
    have hpos := h.queue.count_pos ((h.queue.mem_iff _).mp (channelInDiff_mem hf))
    rw [if_neg (show ¬s.readyDiffCount = 0 by omega), if_neg (by simpa using channelInDiff_mem hf)] at hr
    obtain rfl := Except.ok.inj hr
    rw [Served, deferUntil_eq h.toInv he]

theorem beginChannelDifference_queue {f : Int} {e : LiveEntry} (h : s.Good)
    (he : s.entry (.channel f) = some e) (hd : e.recoveryDeferred = false)
    {diff : ChannelDifferenceParts} (hr : s.beginChannelDifference f diff now = .ok s') :
    s'.gettingDiffFor = if diff.isFinal then s.gettingDiffFor.erase (.channel f)
      else s.gettingDiffFor := by
  have h0 := h.clearRecovery he hd
  have hq : (s.clearRecovery f).gettingDiffFor = s.gettingDiffFor := rfl
  unfold MessageBoxes.beginChannelDifference at hr
  cases hf : diff.isFinal with
  | true =>
    obtain ⟨s1, hrun, _⟩ := h0.tryEndGetDiff (.channel f) now
    simp only [hf, ↓reduceIte, hrun, bind, Except.bind, pure, Except.pure] at hr
    obtain rfl := Except.ok.inj hr
    rw [setPts_queue, tryEndGetDiff_queue h0.toInv hrun, hq, if_pos rfl]
  | false =>
    simp only [hf, Bool.false_eq_true, ↓reduceIte, bind, Except.bind, pure, Except.pure] at hr
    obtain rfl := Except.ok.inj hr
    rw [setPts_queue, hq, if_neg (by simp)]

theorem finishChannelDifference_queue (s : MessageBoxes) (f : Int) (diff : ChannelDifferenceParts)
    (failures : Nat) (now : Instant) :
    (s.finishChannelDifference f diff failures now).gettingDiffFor =
      if diff.isFinal ∨ .channel f ∉ s.gettingDiffFor then s.gettingDiffFor
      else s.gettingDiffFor.erase (.channel f) ++ [.channel f] := by
  have hreset : (s.resetTimeout (.channel f) diff.timeout now).gettingDiffFor = s.gettingDiffFor :=
    resetDeadline_queue s _ _
  simp only [MessageBoxes.finishChannelDifference]
  by_cases hf : diff.isFinal = true
  · rw [if_pos hf, if_pos (Or.inl hf)]
    split
    next => rw [retainContiguousHeldUpdates_queue, hreset]
    next => rw [scheduleChannelRetry, retryChannelAt_queue, retainContiguousHeldUpdates_queue, hreset]
  · rw [if_neg hf, rotate, hreset]
    by_cases hm : Key.channel f ∈ s.gettingDiffFor
    · rw [if_pos hm, if_neg (by simp [hf, hm])]
    · rw [if_neg hm, if_pos (Or.inr hm), hreset]

/-- Whatever the updates in a difference start, its channel goes behind the others. -/
theorem Served.applyChannelDifference {f : Int} (h : s.Good) (hf : s.channelInDiff = some f)
    {difference : ChannelDifference} {diff : ChannelDifferenceParts} {r : UpdateAndPeers}
    (ha : adaptChannelDifference difference = .ok diff)
    (hr : s.applyChannelDifference difference now = .ok (s', r)) : Served f s s' := by
  obtain ⟨e, he, _, hd⟩ := h.toInv.channelInDiff hf
  obtain ⟨b, s1, s2, result, hrun1, _, _, _, _, _, hb, hrun⟩ :=
    applyChannelDifference_eq h hf he ha now
  obtain ⟨rfl, _⟩ := Prod.mk.inj (Except.ok.inj (hr.symm.trans hrun))
  have hq1 := beginChannelDifference_queue h he hd hrun1
  have hq2 := hb.queue
  rw [Served, finishChannelDifference_queue]
  cases hfin : diff.isFinal with
  | true =>
    rw [hq1, if_pos hfin] at hq2
    simpa using hq2
  | false =>
    rw [hq1, if_neg (by simp [hfin])] at hq2
    have hm := channelInDiff_mem hf
    rw [if_neg (by simpa using hq2.subset hm)]
    exact (erase_isPrefix_erase hq2 hm).trans (List.prefix_append _ _)

/-- The first channel that is ready makes way for the next. -/
theorem Served.channelsBefore {f : Int} (h : Served f s s') (hf : s.channelInDiff = some f)
    (hc : .channel c ∈ s.gettingDiffFor) (hne : f ≠ c) :
    .channel c ∈ s'.gettingDiffFor ∧ s.channelsBefore c = .channel f :: s'.channelsBefore c := by
  have hk : Key.channel f ≠ .channel c := fun he => hne (Key.channel.inj he)
  have hm := (List.mem_erase_of_ne hk.symm).mpr hc
  refine ⟨h.subset hm, ?_⟩
  have hfirst := before_erase_first (channelInDiff_eq_some_iff.mp hf) hk rfl
  rw [MessageBoxes.channelsBefore, hfirst, MessageBoxes.channelsBefore, before_of_isPrefix h hm]

end MessageBoxes

/-- The calls that are made for the first ready channel. A checked difference that is
refused changes nothing and is not one. -/
def Op.isChannelStep (s : MessageBoxes) : Op → Bool
  | .applyChannelDifference _ => true
  | .tryApplyChannelDifference difference => s.channelInDiff.any difference.isValid
  | .deferChannelDifference _ => true
  | .endChannelDifference _ => true
  | _ => false

theorem Op.exec_served {op : Op} {f : Int} (h : s.Good) (hf : s.channelInDiff = some f)
    (hop : op.isChannelStep s = true) (hr : op.exec s now = .ok s') : Served f s s' := by
  have happly : ∀ {difference : ChannelDifference} {diff : ChannelDifferenceParts},
      adaptChannelDifference difference = .ok diff →
      outcome (s.applyChannelDifference difference now) = .ok s' → Served f s s' := by
    intro difference diff ha hr
    obtain ⟨s1, result, hrun, _⟩ := h.applyChannelDifference hf ha now
    obtain rfl : s1 = s' := by simpa [hrun, outcome, settled, Except.map] using hr
    exact Served.applyChannelDifference h hf ha hrun
  cases op with
  | applyChannelDifference difference =>
    cases ha : adaptChannelDifference difference with
    | ok diff => exact happly ha hr
    | error exit =>
      cases exit with
      | panic reason =>
        simp [Op.exec, MessageBoxes.applyChannelDifference, hf, ha, bind, Except.bind, outcome,
          settled, Except.map] at hr
      | gap s1 => exact absurd ha (adaptChannelDifference_ne_gap difference s1)
  | tryApplyChannelDifference difference =>
    have hv : difference.isValid f = true := by simpa [Op.isChannelStep, hf] using hop
    obtain ⟨diff, ha, _⟩ := adaptChannelDifference_of_valid hv
    refine happly ha ?_
    simpa [Op.exec, MessageBoxes.tryApplyChannelDifference, hf, hv] using hr
  | deferChannelDifference retryAfter =>
    obtain ⟨s1, hrun, _⟩ := h.deferChannelDifference hf retryAfter now
    obtain rfl : s1 = s' := by simpa [Op.exec, hrun, settled] using hr
    exact Served.deferChannelDifference h hf hrun
  | endChannelDifference reason =>
    obtain ⟨s1, hrun, _⟩ := h.endChannelDifference hf reason now
    obtain rfl : s1 = s' := by simpa [Op.exec, hrun, settled] using hr
    exact Served.endChannelDifference h hf hrun
  | _ => simp [Op.isChannelStep] at hop

theorem Op.exec_undelayed {op : Op} (h : s.Good) (ha : op.Allowed s)
    (hop : op.isChannelStep s = false) (hr : op.exec s now = .ok s') : Undelayed c s s' := by
  have hsame : s'.gettingDiffFor = s.gettingDiffFor → Undelayed c s s' := fun hq =>
    .of_isPrefix (hq ▸ List.prefix_refl _)
  cases op with
  | processUpdates us =>
    have hh := processUpdatesInner_handled h.toInv h.account us [] now
    simp only [Op.exec, MessageBoxes.processUpdates] at hr
    generalize s.processUpdatesInner us [] now = r at hh hr
    cases hh with
    | rejected =>
      obtain rfl := Except.ok.inj hr
      exact .of_isPrefix (tryBeginGetDiff_queue s .common now)
    | skipped =>
      obtain rfl := Except.ok.inj hr
      exact hsame rfl
    | processed _ _ _ _ _ _ hb =>
      obtain rfl := Except.ok.inj hr
      exact .of_isPrefix hb.queue
  | takeReleasedUpdates =>
    cases hready : s.heldReleaseReady with
    | false =>
      obtain rfl : s = s' := by
        simpa [Op.exec, MessageBoxes.takeReleasedUpdates, hready, outcome, settled, Except.map] using hr
      exact hsame rfl
    | true =>
      rcases takeReleasedUpdates_eq h hready now with ⟨_, hrun⟩ | ⟨s1, result, hrun, hb⟩
      · obtain rfl : s.released = s' := by
          simpa [Op.exec, hrun, outcome, settled, Except.map] using hr
        exact hsame rfl
      · obtain rfl : s1 = s' := by simpa [Op.exec, hrun, outcome, settled, Except.map] using hr
        exact .of_isPrefix hb.queue
  | checkDeadlines =>
    obtain rfl := Except.ok.inj hr
    exact .of_isPrefix (checkDeadlines_queue h.toInv now)
  | setState state =>
    obtain rfl := Except.ok.inj hr
    exact hsame rfl
  | trySetChannelState id pts =>
    obtain rfl := Except.ok.inj hr
    refine hsame ?_
    unfold MessageBoxes.trySetChannelState
    split
    next => rfl
    next => rfl
  | applyDifference difference =>
    obtain ⟨s1, result, hrun, hrec⟩ := h.recovered difference now
    obtain rfl : s1 = s' := by simpa [Op.exec, hrun, outcome, settled, Except.map] using hr
    exact Undelayed.recovered h hrec
  | tryApplyDifference difference =>
    rcases tryApplyDifference_cases s difference now with hgap | ⟨_, _, heq⟩
    · obtain rfl : s = s' := by simpa [Op.exec, hgap, outcome, settled, Except.map] using hr
      exact hsame rfl
    · obtain ⟨s1, result, hrun, hrec⟩ := h.recovered difference now
      obtain rfl : s1 = s' := by simpa [Op.exec, heq, hrun, outcome, settled, Except.map] using hr
      exact Undelayed.recovered h hrec
  | tryApplyChannelDifference difference =>
    rcases tryApplyChannelDifference_cases s difference now with hgap | ⟨f, hf, hv, _⟩
    · obtain rfl : s = s' := by simpa [Op.exec, hgap, outcome, settled, Except.map] using hr
      exact hsame rfl
    · simp [Op.isChannelStep, hf, hv] at hop
  | tryExhaustChannelGrace =>
    obtain ⟨f, hf⟩ := Option.isSome_iff_exists.mp ha
    simp only [Op.exec, MessageBoxes.tryExhaustChannelGrace, hf] at hr
    split at hr
    next =>
      obtain rfl := Except.ok.inj hr
      exact hsame rfl
    next =>
      obtain rfl := Except.ok.inj hr
      exact hsame rfl
  | channelDifferenceAccessible =>
    obtain ⟨f, hf⟩ := Option.isSome_iff_exists.mp ha
    simp only [Op.exec, MessageBoxes.channelDifferenceAccessible, hf] at hr
    obtain rfl := Except.ok.inj hr
    exact hsame rfl
  | retryChannelWithoutDelay channelId =>
    obtain rfl := Except.ok.inj hr
    refine hsame ?_
    simp only [MessageBoxes.retryChannelWithoutDelay]
    split
    next => rfl
    next => rfl
  | discardAccountState =>
    obtain ⟨s1, s2, hrun1, hi1, hi, hrun2, _, hrun, _⟩ := discardAccountState_eq h now
    obtain rfl : s2.popEntry .secondary = s' := by simpa [Op.exec, hrun, settled] using hr
    have h1 : Undelayed c s s1 := Undelayed.tryEndGetDiff h.toInv rfl hrun1
    have h2 : Undelayed c (s1.popEntry .common) s2 := Undelayed.tryEndGetDiff hi rfl hrun2
    exact h1.trans h2
  | _ => simp [Op.isChannelStep] at hop

/-- A ready channel with some number of other channels before it. -/
structure Waiting (s : MessageBoxes) (c : Int) (k : Nat) : Prop where
  ready : s.ready (.channel c) = true
  before : (s.channelsBefore c).length = k

/-- The next request for a channel difference is the one for a given channel. -/
def Offered (s : MessageBoxes) (c : Int) : Prop :=
  ∃ entry, s.entry (.channel c) = some entry ∧
    s.getChannelDifference = .ok (some ⟨c, entry.pts⟩)

/-- A run with some number of calls for the channels at the front. -/
inductive Turns : Config → Nat → Config → Prop
  | refl {config : Config} : Turns config 0 config
  | turn {start mid stop : Config} {op : Op} {n : Nat} (hstep : Step start op mid)
      (hop : op.isChannelStep start.boxes = true) (h : Turns mid n stop) : Turns start (n + 1) stop
  | other {start mid stop : Config} {op : Op} {n : Nat} (hstep : Step start op mid)
      (hop : op.isChannelStep start.boxes = false) (h : Turns mid n stop) : Turns start n stop

variable {k n : Nat} {op : Op}

theorem Waiting.offered_iff (h : Waiting s c k) (hg : s.Good) : Offered s c ↔ k = 0 := by
  have hc := (hg.queue.mem_iff _).mpr h.ready
  rw [← h.before, List.length_eq_zero_iff, channelsBefore, before_eq_nil_iff hc rfl,
    ← channelInDiff_eq_some_iff]
  constructor
  · rintro ⟨e, _, hr⟩
    unfold MessageBoxes.getChannelDifference at hr
    split at hr
    next => simp at hr
    next f hf =>
      split at hr
      next =>
        have hfc : f = c := by
          have := Option.some.inj (Except.ok.inj hr)
          exact congrArg GetChannelDifference.channelId this
        rw [hf, hfc]
      next => simp at hr
  · intro hf
    obtain ⟨e, he, _⟩ := hg.toInv.channelInDiff hf
    exact ⟨e, he, by simp [MessageBoxes.getChannelDifference, hf, he]⟩

/-- Some channel is ready, so a call for one is allowed. -/
theorem Waiting.channelInDiff (h : Waiting s c k) (hg : s.Good) :
    ∃ f, s.channelInDiff = some f ∧ (f = c ↔ k = 0) := by
  have hc := (hg.queue.mem_iff _).mpr h.ready
  have hiff : s.channelInDiff = some c ↔ k = 0 := by
    rw [← h.before, List.length_eq_zero_iff, channelsBefore, before_eq_nil_iff hc rfl,
      ← channelInDiff_eq_some_iff]
  cases hf : s.channelInDiff with
  | none =>
    have hnone := List.findSome?_eq_none_iff.mp hf _ hc
    simp at hnone
  | some f =>
    refine ⟨f, rfl, ?_⟩
    rw [← hiff, hf, Option.some.injEq]

theorem Waiting.of_undelayed (h : Waiting s c k) (hg : s.Good) (hg' : s'.Good)
    (hu : Undelayed c s s') : Waiting s' c k := by
  obtain ⟨hm, hb⟩ := hu ((hg.queue.mem_iff _).mpr h.ready)
  exact ⟨(hg'.queue.mem_iff _).mp hm, hb ▸ h.before⟩

theorem Waiting.of_served {f : Int} (h : Waiting s c k) (hg : s.Good) (hg' : s'.Good)
    (hf : s.channelInDiff = some f) (hne : f ≠ c) (hs : Served f s s') : Waiting s' c (k - 1) := by
  obtain ⟨hm, hb⟩ := hs.channelsBefore hf ((hg.queue.mem_iff _).mpr h.ready) hne
  refine ⟨(hg'.queue.mem_iff _).mp hm, ?_⟩
  rw [← h.before, hb, List.length_cons, Nat.add_sub_cancel]

/-- A call for the channel at the front brings the others one place forward. -/
theorem Waiting.turn {start stop : Config} (h : Waiting start.boxes c k) (hk : 0 < k)
    (hg : start.boxes.Good) (hstep : Step start op stop)
    (hop : op.isChannelStep start.boxes = true) : Waiting stop.boxes c (k - 1) := by
  obtain ⟨f, hf, hfc⟩ := h.channelInDiff hg
  have hne : f ≠ c := fun he => by
    have := hfc.mp he
    omega
  exact h.of_served hg (hstep.good hg) hf hne (Op.exec_served hg hf hop hstep.ran)

theorem Waiting.other {start stop : Config} (h : Waiting start.boxes c k)
    (hg : start.boxes.Good) (hstep : Step start op stop)
    (hop : op.isChannelStep start.boxes = false) : Waiting stop.boxes c k :=
  h.of_undelayed hg (hstep.good hg) (Op.exec_undelayed hg hstep.allowed hop hstep.ran)

theorem Waiting.turns {start stop : Config} (h : Waiting start.boxes c k)
    (hg : start.boxes.Good) (hrun : Turns start n stop) (hn : n ≤ k) :
    Waiting stop.boxes c (k - n) ∧ stop.boxes.Good := by
  induction hrun generalizing k with
  | refl => exact ⟨h, hg⟩
  | @turn start mid stop op n hstep hop _ ih =>
    have h1 := h.turn (by omega) hg hstep hop
    obtain ⟨h2, hg2⟩ := ih h1 (hstep.good hg) (by omega)
    refine ⟨?_, hg2⟩
    rwa [show k - (n + 1) = k - 1 - n by omega]
  | other hstep hop _ ih => exact ih (h.other hg hstep hop) (hstep.good hg) hn

/-- Every ready channel gets its turn: each call for the channel at the front brings it one
place forward, no other call moves it, and a call for the front is always possible. So
after as many of them as there are channels before it, and not sooner, it is offered. -/
theorem ready_channel_offered {start : Config} (hr : Reached start) {c : Int} {k : Nat}
    (hw : Waiting start.boxes c k) :
    (Offered start.boxes c ↔ k = 0) ∧
      (∀ op : Op, op.isChannelStep start.boxes = true → op.Allowed start.boxes ∧
        ∀ now, (∃ s', op.exec start.boxes now = .ok s') ∨
          ∃ difference reason, op = .applyChannelDifference difference ∧
            adaptChannelDifference difference = .error (.panic reason) ∧
            op.exec start.boxes now = .error reason) ∧
      (∀ op stop, Step start op stop →
        if op.isChannelStep start.boxes then 0 < k → Waiting stop.boxes c (k - 1)
        else Waiting stop.boxes c k) ∧
      ∀ n stop, Turns start n stop → n ≤ k →
        Waiting stop.boxes c (k - n) ∧ (Offered stop.boxes c ↔ n = k) := by
  have hg := hr.good
  obtain ⟨f, hf, _⟩ := hw.channelInDiff hg
  refine ⟨hw.offered_iff hg, ?_, ?_, ?_⟩
  · intro op hop
    have ha : op.Allowed start.boxes := by
      cases op with
      | applyChannelDifference => exact Option.isSome_iff_exists.mpr ⟨f, hf⟩
      | tryApplyChannelDifference => trivial
      | deferChannelDifference => exact Option.isSome_iff_exists.mpr ⟨f, hf⟩
      | endChannelDifference => exact Option.isSome_iff_exists.mpr ⟨f, hf⟩
      | _ => simp [Op.isChannelStep] at hop
    refine ⟨ha, fun now => ?_⟩
    rcases Op.exec_good hg ha now with ⟨s', hok, _⟩ | hbad
    · exact Or.inl ⟨s', hok⟩
    · exact Or.inr hbad
  · intro op stop hstep
    split
    next hop => exact fun hk => hw.turn hk hg hstep hop
    next hop => exact hw.other hg hstep (by simpa using hop)
  · intro n stop hrun hn
    obtain ⟨hw', hg'⟩ := hw.turns hg hrun hn
    refine ⟨hw', ?_⟩
    rw [hw'.offered_iff hg']
    omega

/-- Of two channels restored together, the second is offered once the first is given up. -/
theorem ready_channel_offered_second :
    Offered ((runOps ⟨0, .load ⟨5, 0, 1, 1, [⟨7, 3⟩, ⟨8, 4⟩]⟩ 0⟩
      [(0, .endChannelDifference .banned)]).getD
        ⟨0, .load ⟨5, 0, 1, 1, [⟨7, 3⟩, ⟨8, 4⟩]⟩ 0⟩).boxes 8 :=
  ((ready_channel_offered ⟨_, [], .load _ 0, Path.nil⟩ ⟨by decide, by decide⟩).2.2.2 1 _
    (.turn (step_runOps (by decide)) rfl .refl) le_rfl).2.mpr rfl

end Grammers
