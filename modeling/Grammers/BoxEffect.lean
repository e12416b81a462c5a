import Grammers.BoxReach

namespace Grammers

open LabelledPath

/-- What an account difference does: the positions it brings, then its updates, and the
end of the recovery unless more of it is to come. -/
inductive Recovered (s : MessageBoxes) (now : Instant) : Difference → MessageBoxes → Prop
  | empty {date seq : Int32} {s' : MessageBoxes}
      (hr : MessageBoxes.endAccount { s with date := date, seq := seq } now = .ok s') :
      Recovered s now (.empty date seq) s'
  | tooLong {pts : Int32} {s' : MessageBoxes}
      (hr : (s.setPts .common pts now).endAccount now = .ok s') : Recovered s now (.tooLong pts) s'
  | slice {parts : DifferenceParts} {b : Batch} {us : List Update} {s' : MessageBoxes}
      {result : List (Update × State)} (hnow : b.now = now) (hforce : b.force = [.common, .secondary])
      (hb : Batched b (s.beginDifference parts.state now) us s' result) :
      Recovered s now (.slice parts) s'
  | difference {parts : DifferenceParts} {b : Batch} {us : List Update} {s1 s' : MessageBoxes}
      {result : List (Update × State)} (hnow : b.now = now) (hforce : b.force = [.common, .secondary])
      (hb : Batched b (s.beginDifference parts.state now) us s1 result)
      (hr : s1.endAccount now = .ok s') : Recovered s now (.difference parts) s'

/-- What a call does to the entries and their deadlines, up to what has nothing to do
with either. -/
inductive Effect (s : MessageBoxes) (now : Instant) : Op → MessageBoxes → Prop
  | same {op : Op} {s' : MessageBoxes} (hentries : s'.entries = s.entries)
      (hnext : s'.nextDeadline = s.nextDeadline) : Effect s now op s'
  | began {op : Op} : Effect s now op (s.tryBeginGetDiff .common now)
  | batched {op : Op} {b : Batch} {s0 s' : MessageBoxes} {us : List Update}
      {result : List (Update × State)} (h0 : s0.Good) (hentries : s0.entries = s.entries)
      (hnext : s0.nextDeadline = s.nextDeadline) (hnow : b.now = now) (hforce : b.force = [])
      (hb : Batched b s0 us s' result) : Effect s now op s'
  | scanned : Effect s now .checkDeadlines (s.checkDeadlines now).2
  | stateSet {state : ServerState} : Effect s now (.setState state) (s.setState state now)
  | channelSet {id : Int} {pts : Int32} (he : s.entry (.channel id) = none) :
      Effect s now (.trySetChannelState id pts) (s.trySetChannelState id pts now)
  | account {op : Op} {difference : Difference} {s' : MessageBoxes}
      (hop : op = .applyDifference difference ∨ op = .tryApplyDifference difference ∧
        (s.isGettingDiff .common = true ∨ s.isGettingDiff .secondary = true) ∧
        difference.isValid = true)
      (hr : Recovered s now difference s') : Effect s now op s'
  | channel {op : Op} {difference : ChannelDifference} {c : Int} {diff : ChannelDifferenceParts}
      {s' : MessageBoxes} {result : UpdateAndPeers}
      (hop : op = .applyChannelDifference difference ∨
        op = .tryApplyChannelDifference difference ∧ difference.isValid c = true)
      (hc : s.channelInDiff = some c) (ha : adaptChannelDifference difference = .ok diff)
      (hr : s.applyChannelDifference difference now = .ok (s', result)) : Effect s now op s'
  | gaveUp {op : Op} {c : Int} {s0 s1 : MessageBoxes} (h0 : s0.Good)
      (hentries : s0.entries = s.entries) (hnext : s0.nextDeadline = s.nextDeadline)
      (hr : s0.tryEndGetDiff (.channel c) now = .ok s1) : Effect s now op (s1.popEntry (.channel c))
  | postponed {retryAfter : Duration} {c : Int} {e : LiveEntry}
      (he : s.entry (.channel c) = some e) (hready : e.isReady = true) :
      Effect s now (.deferChannelDifference retryAfter)
        (s.deferUntil (.channel c) (now + min retryAfter noUpdatesTimeout))
  | accessible {op : Op} {c : Int} {e : LiveEntry} {s' : MessageBoxes}
      (he : s.entry (.channel c) = some e)
      (hentries : s'.entries = (s.setEntry { e with recoveryDeferrals := 0 }).entries)
      (hnext : s'.nextDeadline = s.nextDeadline) : Effect s now op s'
  | hurried {c : Int} {e : LiveEntry} (he : s.entry (.channel c) = some e) :
      Effect s now (.retryChannelWithoutDelay c) (s.retryChannelWithoutDelay c now)
  | ended {reason : PrematureEndReason} {c : Int} {s' : MessageBoxes}
      (hc : s.channelInDiff = some c) (hr : s.endChannelDifference reason now = .ok s') :
      Effect s now (.endChannelDifference reason) s'
  | discarded {op : Op} {s1 s2 : MessageBoxes} (hr1 : s.tryEndGetDiff .common now = .ok s1)
      (hi1 : s1.Inv) (hi : (s1.popEntry .common).Inv)
      (hr2 : (s1.popEntry .common).tryEndGetDiff .secondary now = .ok s2) (hi2 : s2.Inv) :
      Effect s now op (s2.popEntry .secondary)

namespace MessageBoxes

variable {s s' : MessageBoxes} {c : Int} {now : Instant}

theorem Good.processUpdates_effect (h : s.Good) {us : UpdatesLike}
    (hr : outcome (s.processUpdates us now) = .ok s') : Effect s now (.processUpdates us) s' := by
  have hh := processUpdatesInner_handled h.toInv h.account us [] now
  rw [MessageBoxes.processUpdates] at hr
  generalize s.processUpdatesInner us [] now = r at hh hr
  cases hh with
  | rejected =>
    obtain rfl := Except.ok.inj hr
    exact .began
  | skipped =>
    obtain rfl := Except.ok.inj hr
    exact .same rfl rfl
  | processed _ _ hnow hforce _ _ hb =>
    obtain rfl := Except.ok.inj hr
    exact .batched h rfl rfl hnow hforce hb

theorem Good.takeReleasedUpdates_effect (h : s.Good)
    (hr : outcome (s.takeReleasedUpdates now) = .ok s') : Effect s now .takeReleasedUpdates s' := by
  cases hready : s.heldReleaseReady with
  | false =>
    obtain rfl : s = s' := by
      simpa [MessageBoxes.takeReleasedUpdates, hready, outcome, settled, Except.map] using hr
    exact .same rfl rfl
  | true =>
    rcases takeReleasedUpdates_eq h hready now with ⟨_, hrun⟩ | ⟨s1, result, hrun, hb⟩
    · obtain rfl : s.released = s' := by
        simpa [hrun, outcome, settled, Except.map] using hr
      exact .same rfl rfl
    · obtain rfl : s1 = s' := by simpa [hrun, outcome, settled, Except.map] using hr
      exact .batched h.released rfl rfl rfl rfl hb

theorem Good.recovered (h : s.Good) (difference : Difference) (now : Instant) :
    ∃ s' result, s.applyDifference difference now = .ok (s', result) ∧
      Recovered s now difference s' := by
  cases difference with
  | empty date seq =>
    have h0 : Good { s with date := date, seq := seq } := h.congr rfl rfl rfl rfl
    obtain ⟨s', hrun, _⟩ := h0.endAccount now
    exact ⟨s', _, by simp only [MessageBoxes.applyDifference, hrun, bind, Except.bind]; rfl, .empty hrun⟩
  | difference parts =>
    obtain ⟨b, s1, result, hnow, hforce, _, _, hb, hrun1⟩ := applyDifferenceType_eq h parts now
    have h1 := h.beginDifference parts.state now
    obtain ⟨hi1, ha1⟩ := hb.inv h1.toInv h1.account
    obtain ⟨s', hrun, _⟩ := Good.endAccount ⟨hi1, ha1⟩ now
    exact ⟨s', _, by simp only [MessageBoxes.applyDifference, hrun1, hrun, bind, Except.bind]; rfl,
      .difference hnow hforce hb hrun⟩
  | slice parts =>
    obtain ⟨b, s', result, hnow, hforce, _, _, hb, hrun⟩ := applyDifferenceType_eq h parts now
    exact ⟨s', _, hrun, .slice hnow hforce hb⟩
  | tooLong pts =>
    have h0 := h.setPts (k := .common) (by simp) (by simp [Key.isChannel]) pts now
    obtain ⟨s', hrun, _⟩ := h0.endAccount now
    exact ⟨s', _, by simp only [MessageBoxes.applyDifference, hrun, bind, Except.bind]; rfl,
      .tooLong hrun⟩

theorem Good.deferChannelDifference_effect (h : s.Good) (hc : s.channelInDiff = some c)
    {retryAfter : Duration} (hr : settled (s.deferChannelDifference retryAfter now) = .ok s') :
    Effect s now (.deferChannelDifference retryAfter) s' := by
  obtain ⟨e, he, hp, hd⟩ := h.toInv.channelInDiff hc
  have hpos := h.queue.count_pos ((h.queue.mem_iff _).mp (channelInDiff_mem hc))
  unfold MessageBoxes.deferChannelDifference at hr
  simp only [hc] at hr
  split at hr
  next =>
    have h0 : Good { s with exhaustedChannels := insert c s.exhaustedChannels } :=
      h.congr rfl rfl rfl rfl
    obtain ⟨s1, hrun, _⟩ := h0.tryEndGetDiff (.channel c) now
    obtain rfl : s1.popEntry (.channel c) = s' := by
      simpa [hrun, bind, Except.bind, pure, Except.pure, settled] using hr
    exact .gaveUp h0 rfl rfl hrun
  next =>
    rw [if_neg (show ¬s.readyDiffCount = 0 by omega), if_neg (by simpa using channelInDiff_mem hc)] at hr
    obtain rfl := Except.ok.inj hr
    exact .postponed he (by simp [LiveEntry.isReady, hp, hd])

theorem Good.channelDifferenceAccessible_effect (h : s.Good) (hc : s.channelInDiff = some c)
    (hr : settled s.channelDifferenceAccessible = .ok s') :
    Effect s now .channelDifferenceAccessible s' := by
  obtain ⟨e, he, _⟩ := h.toInv.channelInDiff hc
  have hset := updateEntry_of_entry (f := fun entry => { entry with recoveryDeferrals := 0 })
    (s := { s with exhaustedChannels := s.exhaustedChannels.erase c }) h.sorted he rfl
  unfold MessageBoxes.channelDifferenceAccessible at hr
  simp only [hc, hset] at hr
  obtain rfl := Except.ok.inj hr
  exact .accessible he rfl rfl

end MessageBoxes

open MessageBoxes in
theorem Op.exec_effect {op : Op} {s s' : MessageBoxes} {now : Instant} (h : s.Good)
    (ha : op.Allowed s) (hr : op.exec s now = .ok s') : Effect s now op s' := by
  cases op with
  | processUpdates us => exact h.processUpdates_effect hr
  | takeReleasedUpdates => exact h.takeReleasedUpdates_effect hr
  | checkDeadlines =>
    obtain rfl := Except.ok.inj hr
    exact .scanned
  | setState state =>
    obtain rfl := Except.ok.inj hr
    exact .stateSet
  | trySetChannelState id pts =>
    obtain rfl := Except.ok.inj hr
    cases he : s.entry (.channel id) with
    | none => exact .channelSet he
    | some e =>
      have hsame : s.trySetChannelState id pts now = s := by simp [MessageBoxes.trySetChannelState, he]
      rw [hsame]
      exact .same rfl rfl
  | applyDifference difference =>
    obtain ⟨s1, result, hrun, hrec⟩ := h.recovered difference now
    obtain rfl : s1 = s' := by simpa [Op.exec, hrun, outcome, settled, Except.map] using hr
    exact .account (Or.inl rfl) hrec
  | tryApplyDifference difference =>
    rcases tryApplyDifference_cases s difference now with hgap | ⟨hv, hpend, heq⟩
    · obtain rfl : s = s' := by simpa [Op.exec, hgap, outcome, settled, Except.map] using hr
      exact .same rfl rfl
    · obtain ⟨s1, result, hrun, hrec⟩ := h.recovered difference now
      obtain rfl : s1 = s' := by simpa [Op.exec, heq, hrun, outcome, settled, Except.map] using hr
      exact .account (Or.inr ⟨rfl, hpend, hv⟩) hrec
  | applyChannelDifference difference =>
    obtain ⟨c, hc⟩ := Option.isSome_iff_exists.mp ha
    cases had : adaptChannelDifference difference with
    | ok diff =>
      obtain ⟨s1, result, hrun, _⟩ := h.applyChannelDifference hc had now
      obtain rfl : s1 = s' := by simpa [Op.exec, hrun, outcome, settled, Except.map] using hr
      exact .channel (Or.inl rfl) hc had hrun
    | error exit =>
      cases exit with
      | panic reason =>
        simp [Op.exec, MessageBoxes.applyChannelDifference, hc, had, bind, Except.bind, outcome,
          settled, Except.map] at hr
      | gap s1 => exact absurd had (adaptChannelDifference_ne_gap difference s1)
  | tryApplyChannelDifference difference =>
    rcases tryApplyChannelDifference_cases s difference now with hgap | ⟨c, hc, hv, heq⟩
    · obtain rfl : s = s' := by simpa [Op.exec, hgap, outcome, settled, Except.map] using hr
      exact .same rfl rfl
    · obtain ⟨diff, had, _⟩ := adaptChannelDifference_of_valid hv
      obtain ⟨s1, result, hrun, _⟩ := h.applyChannelDifference hc had now
      obtain rfl : s1 = s' := by simpa [Op.exec, heq, hrun, outcome, settled, Except.map] using hr
      exact .channel (Or.inr ⟨rfl, hv⟩) hc had hrun
  | deferChannelDifference retryAfter =>
    obtain ⟨c, hc⟩ := Option.isSome_iff_exists.mp ha
    exact h.deferChannelDifference_effect hc hr
  | tryExhaustChannelGrace =>
    obtain ⟨c, hc⟩ := Option.isSome_iff_exists.mp ha
    simp only [Op.exec, MessageBoxes.tryExhaustChannelGrace, hc] at hr
    split at hr
    next =>
      obtain rfl := Except.ok.inj hr
      exact .same rfl rfl
    next =>
      obtain rfl := Except.ok.inj hr
      exact .same rfl rfl
  | channelDifferenceAccessible =>
    obtain ⟨c, hc⟩ := Option.isSome_iff_exists.mp ha
    exact h.channelDifferenceAccessible_effect hc hr
  | retryChannelWithoutDelay channelId =>
    obtain rfl := Except.ok.inj hr
    cases he : s.entry (.channel channelId) with
    | none =>
      rw [retryChannelWithoutDelay_of_none h.toInv he]
      exact .same rfl rfl
    | some e => exact .hurried he
  | endChannelDifference reason =>
    obtain ⟨c, hc⟩ := Option.isSome_iff_exists.mp ha
    obtain ⟨s1, hrun, _⟩ := h.endChannelDifference hc reason now
    obtain rfl : s1 = s' := by simpa [Op.exec, hrun, settled] using hr
    exact .ended hc hrun
  | discardAccountState =>
    obtain ⟨s1, s2, hrun1, hi1, hi, hrun2, hi2, hrun, _⟩ := discardAccountState_eq h now
    obtain rfl : s2.popEntry .secondary = s' := by simpa [Op.exec, hrun, settled] using hr
    exact .discarded hrun1 hi1 hi hrun2 hi2

end Grammers
