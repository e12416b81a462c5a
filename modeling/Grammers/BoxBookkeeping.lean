import Grammers.BoxReach

namespace Grammers

open LabelledPath

/-- The redundant state of recoveries agrees with itself. -/
structure Bookkeeping (s : MessageBoxes) : Prop where
  sorted : s.entries.Pairwise fun a b => a.key < b.key
  account : (∃ e ∈ s.entries, e.key = .secondary) → ∃ e ∈ s.entries, e.key = .common
  deferred : ∀ e ∈ s.entries, e.recoveryDeferred = true → e.recoveryPending = true
  nodup : s.gettingDiffFor.Nodup
  queued : ∀ k, k ∈ s.gettingDiffFor ↔
    ∃ e ∈ s.entries, e.key = k ∧ e.recoveryPending = true ∧ e.recoveryDeferred = false
  count : s.readyDiffCount = s.gettingDiffFor.length
  held : s.heldUpdates.length ≤ maxHeldUpdates
  gaps : ∀ e ∈ s.entries, ∀ gap, e.possibleGap = some gap → gap.updates.length ≤ maxHeldUpdates

namespace MessageBoxes

variable {s : MessageBoxes} {k : Key}

theorem mem_entries_iff (h : s.Inv) : (∃ e ∈ s.entries, e.key = k) ↔ (s.entry k).isSome = true := by
  rw [Option.isSome_iff_exists]
  exact exists_congr fun e => (entry_eq_some_iff h.sorted).symm

theorem Good.bookkeeping (h : s.Good) : Bookkeeping s where
  sorted := h.sorted
  account := by
    rw [mem_entries_iff h.toInv, mem_entries_iff h.toInv]
    exact h.account
  deferred := fun e he => (h.entryOk _ e (entry_of_mem h.sorted he)).deferred
  nodup := h.queue.nodup
  queued := by
    intro k
    rw [h.queue.mem_iff]
    constructor
    · intro hr
      cases he : s.entry k with
      | none => simp [ready, he] at hr
      | some e =>
        obtain ⟨hm, hk⟩ := (entry_eq_some_iff h.sorted).mp he
        simp only [ready, he, Option.any_some, LiveEntry.isReady, Bool.and_eq_true,
          Bool.not_eq_true'] at hr
        exact ⟨e, hm, hk, hr⟩
    · rintro ⟨e, hm, rfl, hp, hd⟩
      simp [ready, entry_of_mem h.sorted hm, LiveEntry.isReady, hp, hd]
  count := h.queue.count_eq
  held := h.heldBound
  gaps := by
    intro e he gap hg
    have := (h.entryOk _ e (entry_of_mem h.sorted he)).bound
    simpa [LiveEntry.buffer, hg] using this

/-- A ready channel is known, so its request can always be made. -/
theorem Good.getChannelDifference (h : s.Good) : ∃ request, s.getChannelDifference = .ok request := by
  unfold MessageBoxes.getChannelDifference
  cases hc : s.channelInDiff with
  | none => exact ⟨none, rfl⟩
  | some c =>
    obtain ⟨e, he, _⟩ := h.toInv.channelInDiff hc
    simp only [he]
    exact ⟨_, rfl⟩

end MessageBoxes

/-- The panics of a dialog without a channel position. -/
def Panic.isDialog : Panic → Bool
  | .dialogWithoutPts => true
  | .dialogFolder => true
  | .dialogCommunity => true
  | _ => false

theorem adaptChannelDifference_panic {difference : ChannelDifference} {reason : Panic}
    (h : adaptChannelDifference difference = .error (.panic reason)) : reason.isDialog = true := by
  cases difference with
  | empty isFinal pts timeout => simp [adaptChannelDifference] at h
  | difference parts => simp [adaptChannelDifference] at h
  | tooLong isFinal timeout dialog chats users =>
    cases dialog with
    | dialog peer pts =>
      cases pts with
      | none =>
        simp only [adaptChannelDifference, Except.error.injEq, Exit.panic.injEq] at h
        subst h
        rfl
      | some pts => simp [adaptChannelDifference] at h
    | folder =>
      simp only [adaptChannelDifference, Except.error.injEq, Exit.panic.injEq] at h
      subst h
      rfl
    | community =>
      simp only [adaptChannelDifference, Except.error.injEq, Exit.panic.injEq] at h
      subst h
      rfl

/-- In every reachable state the bookkeeping of recoveries is exact, so no call that is
allowed fails on it: only a malformed dialog given to the unchecked path can panic. -/
theorem reachable_bookkeeping {s : MessageBoxes} (h : Reachable s) :
    Bookkeeping s ∧ (∃ request, s.getChannelDifference = .ok request) ∧
      (∀ k now, ∃ s', s.tryEndGetDiff k now = .ok s') ∧
      ∀ (op : Op) (now : Instant) (reason : Panic), op.Allowed s → op.exec s now = .error reason → reason.isDialog = true := by
  have hg := h.good
  refine ⟨hg.bookkeeping, hg.getChannelDifference, ?_, ?_⟩
  · intro k now
    obtain ⟨s', hr, _⟩ := hg.tryEndGetDiff k now
    exact ⟨s', hr⟩
  · intro op now reason ha hr
    rcases Op.exec_good hg ha now with ⟨s', hok, _⟩ | ⟨difference, reason', _, hd, hr'⟩
    · rw [hr] at hok
      simp at hok
    · rw [hr] at hr'
      exact Except.error.inj hr' ▸ adaptChannelDifference_panic hd

/-- Of two channels under recovery one is deferred while an update of it is held, the recovery of the
other ends, and the deferred one is asked for again at its deadline. -/
theorem reachable_bookkeeping_deferred :
    ∃ s, Bookkeeping s ∧ s.heldUpdates.length = 1 ∧ s.getChannelDifference = .ok (some ⟨7, 3⟩) := by
  let start : Config := ⟨0, .load ⟨5, 0, 1, 1, [⟨7, 3⟩, ⟨9, 3⟩]⟩ 0⟩
  let ops : List (Instant × Op) := [
    (0, .processUpdates (.updates (.updates [.deleteChannelMessages 7 [] 4 1] [] [] 0 0))),
    (0, .deferChannelDifference 3), (1, .endChannelDifference .temporaryServerIssues),
    (1, .takeReleasedUpdates), (4, .checkDeadlines)]
  have hreach : Reachable ((runOps start ops).getD start).boxes :=
    reachable_runOps (.load ⟨5, 0, 1, 1, [⟨7, 3⟩, ⟨9, 3⟩]⟩ 0) (by decide)
  exact ⟨_, (reachable_bookkeeping hreach).1, by decide, by decide⟩

end Grammers
