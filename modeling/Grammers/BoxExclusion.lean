import Grammers.BoxTimed
import Grammers.BoxEffect
import Grammers.BoxRelease

namespace Grammers

open StableSort Reassembly LabelledPath

/-- A final difference that asks for its own channel to be fetched again. -/
def ChannelDifferenceParts.Restarts (diff : ChannelDifferenceParts) (c : Int) : Prop :=
  diff.isFinal = true ∧ ∃ pts, Update.channelTooLong c pts ∈ retainValidUpdates diff.otherUpdates

/-- A difference that restarts the recovery of its channel is only sound while none of the
updates held for the channel, less those that its other updates evict, lies beyond it. -/
def ChannelDifferenceParts.Sound (diff : ChannelDifferenceParts) (s : MessageBoxes) (c : Int)
    (now : Instant) : Prop :=
  diff.Restarts c → (MessageBoxes.heldDrain { s with
    heldUpdates := latest maxHeldUpdates (s.heldUpdates ++ s.postponedBy c diff now) } c diff.pts).rest = []

/-- The channel differences that a call applies are sound. -/
def Op.Sound (s : MessageBoxes) (now : Instant) : Op → Prop
  | .applyChannelDifference difference =>
    ∀ c diff, s.channelInDiff = some c → adaptChannelDifference difference = .ok diff →
      diff.Sound s c now
  | .tryApplyChannelDifference difference =>
    ∀ c diff, s.channelInDiff = some c → difference.isValid c = true →
      adaptChannelDifference difference = .ok diff → diff.Sound s c now
  | _ => True

namespace MessageBoxes

variable {s s' : MessageBoxes} {e : LiveEntry} {k : Key} {c : Int} {now : Instant}
  {diff : ChannelDifferenceParts}

theorem Timed.finishChannelDifference (h : s.Timed now) (hg : s.Good)
    (he : s.entry (.channel c) = some e) (hn : e.retryNotBefore = none)
    (hsound : e.recoveryPending = true → diff.isFinal = true → (s.heldDrain c diff.pts).rest = [])
    (failures : Nat) : (s.finishChannelDifference c diff failures now).Timed now := by
  obtain ⟨t, ht⟩ : ∃ t, t = timeoutDeadline diff.timeout now := ⟨_, rfl⟩
  have h1 : (s.resetDeadline (.channel c) t).Timed now := by
    refine h.resetDeadline hg.sorted ?_ t
    intro e' he'
    obtain rfl := Option.some.inj (he.symm.trans he')
    exact hn
  have hg1 := hg.resetDeadline (.channel c) t
  have he1 : (s.resetDeadline (.channel c) t).entry (.channel c) = some { e with deadline := t } := by
    rw [entry_resetDeadline hg.sorted, if_pos rfl, he]
    rfl
  have hdrain : (s.resetDeadline (.channel c) t).heldDrain c diff.pts = s.heldDrain c diff.pts := by
    rw [heldDrain, heldDrain, heldOf, heldOf, (resetDeadline_held s (.channel c) t).1]
  unfold MessageBoxes.finishChannelDifference
  simp only [resetTimeout, ← ht, retainContiguousHeldUpdates_eq hg1.toInv, hdrain]
  split
  next hf =>
    split
    next => exact h1.congr rfl
    next hne =>
      have hnot : e.recoveryPending = false := by
        by_contra hp
        exact hne (by simp [hsound (by simpa using hp) hf])
      have hheld : ∀ held, Timed { s.resetDeadline (.channel c) t with heldUpdates := held } now :=
        fun _ => h1.congr rfl
      refine Timed.retryChannelAt (e := { e with deadline := t }) (hheld _) ?_ ?_ hnot ?_ ?_
      · exact hg1.sorted
      · exact he1
      · exact Nat.add_le_add_left (channelRetryDelay_le _) now
      · intro hnil
        exact absurd (by simp [hnil]) hne
  next =>
    unfold rotate
    split
    next => exact h1.congr rfl
    next => exact h1

/-- A channel that has answered may be retried at any time. -/
theorem Timed.answered (h : s.Timed now) (hentry : ∀ k, s'.entry k =
    if k = .channel c then some (e.answered diff now) else s.entry k) :
    s'.Timed now ∧ s'.Free [.channel c] := by
  refine ⟨fun k e' he' => ?_, fun k hk e' he' => ?_⟩
  · rw [hentry] at he'
    split at he'
    next =>
      obtain rfl := Option.some.inj he'
      exact .of_free rfl rfl
    next => exact h k e' he'
  · obtain rfl := List.mem_singleton.mp hk
    rw [hentry, if_pos rfl] at he'
    obtain rfl := Option.some.inj he'
    rfl

theorem Timed.applyChannelDifference (h : s.Timed now) (hg : s.Good) {difference : ChannelDifference}
    {r : UpdateAndPeers} (hc : s.channelInDiff = some c)
    (ha : adaptChannelDifference difference = .ok diff) (hsound : diff.Sound s c now)
    (hr : s.applyChannelDifference difference now = .ok (s', r)) : s'.Timed now := by
  obtain ⟨e, he, hp, hd⟩ := hg.toInv.channelInDiff hc
  obtain ⟨b, s1, s2, result, hrun1, hnow, hforce, hdate, hseq, hbatch, hb, hrun⟩ :=
    applyChannelDifference_eq hg hc he ha now
  obtain ⟨s1', hrun1', h1, hheld1, _, _, hentry, _⟩ := beginChannelDifference_eq hg he hp hd diff now
  obtain rfl := Except.ok.inj (hrun1.symm.trans hrun1')
  obtain ⟨rfl, _⟩ := Prod.mk.inj (Except.ok.inj (hr.symm.trans hrun))
  have he1 : s1.entry (.channel c) = some (e.answered diff now) := by rw [hentry, if_pos rfl]
  obtain ⟨ht1, hfree1⟩ := h.answered hentry
  obtain ⟨ht2, _⟩ := hb.timed h1.toInv h1.account ht1 (hforce ▸ hfree1) hnow
  obtain ⟨e2, he2, hsteady, hpend⟩ := entry_after_difference h1 he1 hb hforce
  obtain ⟨hi2, ha2⟩ := hb.inv h1.toInv h1.account
  obtain ⟨_, hheld2, _⟩ := held_after_difference hrun1 h1 he1 rfl hnow hforce hdate hseq hbatch
  refine ht2.finishChannelDifference ⟨hi2, ha2⟩ he2 hsteady.notBefore ?_ _
  -- a pending entry here means that the difference itself asked for another one
  intro hpe hf
  obtain ⟨pts, hm⟩ : ∃ pts, Update.channelTooLong c pts ∈ retainValidUpdates diff.otherUpdates := by
    rcases hpend hpe with hbad | hm
    · simp [LiveEntry.answered, hf] at hbad
    · exact hm
  have hrest := hsound ⟨hf, pts, hm⟩
  rw [← hheld1, ← hheld2] at hrest
  exact hrest

theorem Timed.endAccount (h : s.Timed now) (hi : s.Inv) (hr : s.endAccount now = .ok s') :
    s'.Timed now := by
  obtain ⟨s1, hr1, hi1, _⟩ := hi.tryEndGetDiff .common now
  obtain ⟨s2, hr2, _⟩ := hi1.tryEndGetDiff .secondary now
  obtain rfl : s2 = s' := by simpa [MessageBoxes.endAccount, hr1, hr2, bind, Except.bind] using hr
  exact (h.tryEndGetDiff hi hr1).tryEndGetDiff hi1 hr2

theorem Timed.beginDifference (h : s.Timed now) (hs : s.Sorted) (state : ServerState) :
    (s.beginDifference state now).Timed now := by
  have h0 : Timed { s with date := state.date, seq := state.seq } now := h.congr rfl
  have hs1 : Sorted (MessageBoxes.setPts { s with date := state.date, seq := state.seq } .common
      state.pts now) := by
    rw [setPts_eq (s := { s with date := state.date, seq := state.seq }) hs]
    exact setEntry_sorted hs _
  exact (h0.setPts hs .common state.pts).setPts hs1 .secondary state.qts

theorem Timed.recovered (h : s.Timed now) (hg : s.Good) {difference : Difference}
    (hr : Recovered s now difference s') : s'.Timed now := by
  have hbatch : ∀ {parts : DifferenceParts} {b : Batch} {us : List Update} {s1 : MessageBoxes}
      {result : List (Update × State)}, b.now = now → b.force = [.common, .secondary] →
      Batched b (s.beginDifference parts.state now) us s1 result → s1.Timed now ∧ s1.Inv := by
    intro parts b us s1 result hnow hforce hb
    have h1 := hg.beginDifference parts.state now
    refine ⟨(hb.timed h1.toInv h1.account ?_ ?_ hnow).1, (hb.inv h1.toInv h1.account).1⟩
    · exact h.beginDifference hg.sorted parts.state
    · rw [hforce]
      exact h1.toInv.free_account
  cases hr with
  | @empty date seq _ hr =>
    have h0 : Good { s with date := date, seq := seq } := hg.congr rfl rfl rfl rfl
    have ht0 : Timed { s with date := date, seq := seq } now := h.congr rfl
    exact ht0.endAccount h0.toInv hr
  | @tooLong pts _ hr =>
    have h0 := hg.setPts (k := .common) (by simp) (by simp [Key.isChannel]) pts now
    exact (h.setPts hg.sorted .common pts).endAccount h0.toInv hr
  | slice hnow hforce hb => exact (hbatch hnow hforce hb).1
  | difference hnow hforce hb hr =>
    obtain ⟨h1, hi1⟩ := hbatch hnow hforce hb
    exact h1.endAccount hi1 hr

theorem Timed.endChannelDifference (h : s.Timed now) (hg : s.Good) (hc : s.channelInDiff = some c)
    {reason : PrematureEndReason} (hr : s.endChannelDifference reason now = .ok s') :
    s'.Timed now := by
  obtain ⟨e, he, hp, _⟩ := hg.toInv.channelInDiff hc
  obtain ⟨s1, h1, _, _, hentry, _, hrun⟩ := endChannelDifference_eq hg hc he reason now
  obtain rfl := Except.ok.inj (hrun.symm.trans hr)
  have he1 : s1.entry (.channel c) = some (LiveEntry.ended { e with possibleGap := none } now) := by
    rw [hentry, if_pos rfl]
  have ht1 : s1.Timed now := by
    intro k e' he'
    rw [hentry] at he'
    split at he'
    next =>
      obtain rfl := Option.some.inj he'
      exact ((h _ e he).clearGap hp).ended
    next => exact h k e' he'
  cases reason with
  | temporaryServerIssues =>
    simp only [retainContiguousHeldUpdates_eq h1.toInv, scheduleChannelRetry]
    have hheld : ∀ held, Timed { s1 with heldUpdates := held } now := fun _ => ht1.congr rfl
    refine Timed.retryChannelAt (e := LiveEntry.ended { e with possibleGap := none } now) (hheld _)
      ?_ ?_ rfl ?_ fun _ => ?_
    · exact h1.sorted
    · exact he1
    · exact Nat.add_le_add_left (channelRetryDelay_le _) now
    · exact channelRetry_le _ now
  | banned => exact ht1.popEntry h1.sorted _

theorem Timed.setState (h : s.Timed now) (hs : s.Sorted) (state : ServerState) :
    (s.setState state now).Timed now :=
  Timed.congr ((h.fresh hs .common state.pts _).fresh (setEntry_sorted hs _) .secondary state.qts _) rfl

theorem Timed.effect (h : s.Timed now) (hg : s.Good) {op : Op} (hsound : op.Sound s now)
    (heff : Effect s now op s') : s'.Timed now := by
  cases heff with
  | same hentries => exact h.congr hentries
  | began => exact h.tryBeginGetDiff hg.toInv .common
  | batched h0 hentries _ hnow hforce hb =>
    refine (hb.timed h0.toInv h0.account (h.congr hentries) ?_ hnow).1
    simp [hforce, Free]
  | scanned => exact h.checkDeadlines hg.toInv
  | stateSet => exact h.setState hg.sorted _
  | @channelSet id pts he =>
    rw [MessageBoxes.trySetChannelState, if_pos (by simp [he])]
    exact h.fresh hg.sorted _ pts _
  | account _ hr => exact h.recovered hg hr
  | channel hop hc ha hr =>
    refine h.applyChannelDifference hg hc ha ?_ hr
    rcases hop with rfl | ⟨rfl, hv⟩
    · exact hsound _ _ hc ha
    · exact hsound _ _ hc hv ha
  | @gaveUp _ c s0 s1 h0 hentries _ hr =>
    obtain ⟨s2, hr2, hi2, _⟩ := h0.toInv.tryEndGetDiff (.channel c) now
    obtain rfl := Except.ok.inj (hr2.symm.trans hr)
    exact Timed.popEntry (Timed.tryEndGetDiff (h.congr hentries) h0.toInv hr) hi2.sorted _
  | @postponed retryAfter c e he hready =>
    have ht := (h _ e he).postponed hready (Nat.le_add_right now (min retryAfter noUpdatesTimeout))
    rw [deferUntil_eq hg.toInv he]
    exact Timed.congr (h.setEntry hg.sorted ht) rfl
  | @accessible _ c e _ he hentries =>
    have ht := h _ e he
    have ht' : LiveEntry.Timed { e with recoveryDeferrals := 0 } now :=
      ⟨ht.gap, ht.ready, ht.settled, ht.notBefore, ht.gapDeadline⟩
    exact (h.setEntry hg.sorted ht').congr hentries
  | hurried he =>
    rw [retryChannelWithoutDelay_eq hg.toInv he]
    exact Timed.congr (h.setEntry hg.sorted (h _ _ he).hurried) rfl
  | ended hc hr => exact h.endChannelDifference hg hc hr
  | discarded hr1 hi1 hi hr2 hi2 =>
    have h1 := (h.tryEndGetDiff hg.toInv hr1).popEntry hi1.sorted .common
    exact (h1.tryEndGetDiff hi hr2).popEntry hi2.sorted .secondary

theorem new_timed (now : Instant) : (MessageBoxes.new now).Timed now := by
  intro k e he
  simp [entry_new] at he

theorem load_timed (saved : UpdatesState) (now : Instant) : (load saved now).Timed now := by
  intro k e he
  obtain ⟨pts, rfl⟩ := load_entry he
  exact .of_free rfl rfl

end MessageBoxes

theorem Initial.timed {config : Config} (h : Initial config) : config.boxes.Timed config.now := by
  cases h with
  | new now => exact MessageBoxes.new_timed now
  | load saved now => exact MessageBoxes.load_timed saved now

/-- Recoveries, gaps and backoffs exclude each other at an instant. -/
structure Exclusive (s : MessageBoxes) (now : Instant) : Prop where
  gap : ∀ e ∈ s.entries, e.recoveryPending = true → e.possibleGap = none
  backoff : ∀ e ∈ s.entries, e.key ∈ s.gettingDiffFor →
    ∀ notBefore, e.retryNotBefore = some notBefore → notBefore ≤ now
  offered : ∀ request, s.getChannelDifference = .ok (some request) →
    ∃ e ∈ s.entries, e.key = .channel request.channelId ∧
      ∀ notBefore, e.retryNotBefore = some notBefore → notBefore ≤ now

open MessageBoxes in
theorem MessageBoxes.Timed.exclusive {s : MessageBoxes} {now : Instant} (h : s.Timed now)
    (hg : s.Good) : Exclusive s now := by
  have hready : ∀ e ∈ s.entries, e.key ∈ s.gettingDiffFor →
      ∀ notBefore, e.retryNotBefore = some notBefore → notBefore ≤ now := by
    intro e he hq
    have hentry := entry_of_mem hg.sorted he
    have hr := (hg.queue.mem_iff _).mp hq
    rw [ready_of_entry hentry] at hr
    exact (h _ e hentry).ready hr
  refine ⟨fun e he => (h _ e (entry_of_mem hg.sorted he)).gap, hready, ?_⟩
  intro request hrequest
  cases hc : s.channelInDiff with
  | none => simp [MessageBoxes.getChannelDifference, hc] at hrequest
  | some c =>
    obtain ⟨e, he, _⟩ := hg.toInv.channelInDiff hc
    obtain rfl : (⟨c, e.pts⟩ : GetChannelDifference) = request := by
      simpa [MessageBoxes.getChannelDifference, hc, he] using hrequest
    obtain ⟨hm, hk⟩ := (entry_eq_some_iff hg.sorted).mp he
    exact ⟨e, hm, hk, hready e hm (hk ▸ channelInDiff_mem hc)⟩

/-- A call that applies only sound differences. -/
def SoundStep (start : Config) (op : Op) (stop : Config) : Prop :=
  Step start op stop ∧ op.Sound start.boxes stop.now

theorem SoundStep.timed {start stop : Config} {op : Op} (h : SoundStep start op stop)
    (hg : start.boxes.Good) (ht : start.boxes.Timed start.now) : stop.boxes.Timed stop.now :=
  (ht.mono h.1.later).effect hg h.2 (Op.exec_effect hg h.1.allowed h.1.ran)

/-- As long as no difference restarts the recovery of its own channel with updates held
beyond it, a recovery never has a gap, and no channel is fetched before its retry time. -/
theorem recovery_gap_backoff_exclusive {start stop : Config} {ops : List Op} (hi : Initial start)
    (hp : Path SoundStep start ops stop) {now : Instant} (hnow : stop.now ≤ now) :
    Exclusive stop.boxes now := by
  obtain ⟨hg, ht⟩ := hp.invariant
    (I := fun config => config.boxes.Good ∧ config.boxes.Timed config.now)
    (fun _ _ _ h hstep => ⟨hstep.1.good h.1, hstep.timed h.1 h.2⟩) ⟨hi.good, hi.timed⟩
  exact (ht.mono hnow).exclusive hg

/-- A difference may restart the recovery of its channel when all that is held follows it,
also with an update of another channel among its own. -/
theorem recovery_gap_backoff_exclusive_restarted : ∃ start mid stop : Config,
    Initial start ∧ start.boxes = .load ⟨5, 0, 1, 1, [⟨7, 3⟩, ⟨9, 3⟩]⟩ 0 ∧
      SoundStep start (.processUpdates (.updates (.updates [.deleteChannelMessages 7 [] 4 1,
        .deleteChannelMessages 7 [] 5 1] [] [] 0 0))) mid ∧
      SoundStep mid (.tryApplyChannelDifference (.difference ⟨true, 3, none, [],
        [.channelTooLong 7 none, .deleteChannelMessages 9 [] 4 1], [], []⟩)) stop ∧
      stop.boxes.channelInDiff = some 9 ∧ stop.boxes.heldOf 9 = [.deleteChannelMessages 9 [] 4 1] ∧
      .channel 7 ∈ stop.boxes.gettingDiffFor ∧ Exclusive stop.boxes 0 := by
  let start : Config := ⟨0, .load ⟨5, 0, 1, 1, [⟨7, 3⟩, ⟨9, 3⟩]⟩ 0⟩
  let receive : Op := .processUpdates (.updates (.updates [.deleteChannelMessages 7 [] 4 1,
    .deleteChannelMessages 7 [] 5 1] [] [] 0 0))
  let mid := (runOps start [(0, receive)]).getD start
  let restart : Op := .tryApplyChannelDifference (.difference ⟨true, 3, none, [],
    [.channelTooLong 7 none, .deleteChannelMessages 9 [] 4 1], [], []⟩)
  let stop := (runOps mid [(0, restart)]).getD mid
  have hi : Initial start := .load ⟨5, 0, 1, 1, [⟨7, 3⟩, ⟨9, 3⟩]⟩ 0
  have h1 : SoundStep start receive mid := ⟨step_runOps (by decide), trivial⟩
  have h2 : SoundStep mid restart stop := by
    refine ⟨step_runOps (by decide), ?_⟩
    intro c diff hc _ ha
    obtain rfl : 7 = c := Option.some.inj ((by decide : mid.boxes.channelInDiff = some 7).symm.trans hc)
    obtain rfl := Except.ok.inj ha
    intro
    decide +kernel
  refine ⟨start, mid, stop, hi, rfl, h1, h2, by decide, by decide, by decide, ?_⟩
  exact recovery_gap_backoff_exclusive hi (Path.cons h1 (Path.single h2)) (by decide)

/-- A final difference that asks for its channel to be fetched again begins a recovery
inside the call, which then schedules a retry of what is held beyond the difference: the
recovery has a gap, and is offered a second too early. -/
theorem restarted_recovery_offered_early : ∃ config : Config,
    runOps ⟨0, .load ⟨5, 0, 1, 1, [⟨7, 3⟩]⟩ 0⟩
      [(0, .processUpdates (.updates (.updates [.deleteChannelMessages 7 [] 9 1] [] [] 0 0))),
        (0, .tryApplyChannelDifference (.difference
          ⟨true, 3, none, [], [.channelTooLong 7 none], [], []⟩))] = some config ∧
      Reached config ∧ ¬Exclusive config.boxes config.now ∧
      config.boxes.getChannelDifference = .ok (some ⟨7, 3⟩) ∧
      ∃ e ∈ config.boxes.entries, e.key = .channel 7 ∧ e.recoveryPending = true ∧
        e.possibleGap = some ⟨fromSecs 1, [.deleteChannelMessages 7 [] 9 1]⟩ ∧
        e.retryNotBefore = some (fromSecs 1) ∧ config.now < fromSecs 1 := by
  let start : Config := ⟨0, .load ⟨5, 0, 1, 1, [⟨7, 3⟩]⟩ 0⟩
  let ops : List (Instant × Op) :=
    [(0, .processUpdates (.updates (.updates [.deleteChannelMessages 7 [] 9 1] [] [] 0 0))),
      (0, .tryApplyChannelDifference (.difference
        ⟨true, 3, none, [], [.channelTooLong 7 none], [], []⟩))]
  let config := (runOps start ops).getD start
  have hrun : runOps start ops = some config := runOps_getD (by decide)
  have hentry : ∃ e ∈ config.boxes.entries, e.key = .channel 7 ∧ e.recoveryPending = true ∧
      e.possibleGap = some ⟨fromSecs 1, [.deleteChannelMessages 7 [] 9 1]⟩ ∧
      e.retryNotBefore = some (fromSecs 1) ∧ config.now < fromSecs 1 := by decide
  refine ⟨config, hrun, ⟨start, _, .load ⟨5, 0, 1, 1, [⟨7, 3⟩]⟩ 0, path_runOps hrun⟩, ?_, by decide, hentry⟩
  intro hex
  obtain ⟨e, he, _, hp, hgap, _⟩ := hentry
  simp [hex.gap e he hp] at hgap

end Grammers
