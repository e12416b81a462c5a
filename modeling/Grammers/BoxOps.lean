import Grammers.BoxBatch
import Grammers.BoxHeld
import Grammers.BoxScan

namespace Grammers

open StableSort Reassembly WorkQueue

namespace MessageBoxes

variable {s s' : MessageBoxes} {e : LiveEntry} {k : Key} {c : Int} {now : Instant}

/-- The invariant of every state between two calls. -/
structure Good (s : MessageBoxes) : Prop extends s.Inv where
  account : s.Account

theorem Good.congr (h : s.Good) (he : s'.entries = s.entries)
    (hq : s'.gettingDiffFor = s.gettingDiffFor) (hc : s'.readyDiffCount = s.readyDiffCount)
    (hh : s'.heldUpdates = s.heldUpdates) : s'.Good := by
  refine ⟨h.toInv.congr he hq hc hh, h.account.congr ?_⟩
  intro k
  rw [entry, entry, he]

theorem Good.tryBeginGetDiff (h : s.Good) (k : Key) (now : Instant) :
    (s.tryBeginGetDiff k now).Good :=
  ⟨h.toInv.tryBeginGetDiff k now, h.account.tryBeginGetDiff h.toInv k now⟩

theorem Good.tryEndGetDiff (h : s.Good) (k : Key) (now : Instant) :
    ∃ s', s.tryEndGetDiff k now = .ok s' ∧ s'.Good ∧ s'.heldUpdates = s.heldUpdates ∧
      ∀ k', s'.entry k' = if k' = k then
        (s.entry k).map fun e => if e.recoveryPending then e.ended now else e else s.entry k' := by
  obtain ⟨s', hrun, hi, hheld, hentry⟩ := h.toInv.tryEndGetDiff k now
  refine ⟨s', hrun, ⟨hi, h.account.congr fun k' => ?_⟩, hheld, hentry⟩
  rw [hentry]
  split
  next hk => rw [hk, Option.isSome_map]
  next => rfl

/-- Changing an entry without touching its recovery, where the change is sound. -/
theorem Good.setEntry_known (h : s.Good) (he : s.entry k = some e) (e' : LiveEntry)
    (hk : e'.key = e.key) (hok : e'.Ok) (hr : e'.isReady = e.isReady) : (s.setEntry e').Good := by
  have hkey := h.entry_key he
  refine ⟨h.toInv.setEntry hok ?_, h.account.setEntry h.sorted ?_⟩
  · rw [hk, hkey, ready_of_entry he, hr]
  · intro hsec
    rw [hk, hkey] at hsec
    subst hsec
    exact h.account (by simp [he])

theorem Good.setEntry_fresh (h : s.Good) (hn : s.entry k = none)
    (hk : k = .secondary → (s.entry .common).isSome = true) (pts : Int32) (d : Instant) :
    (s.setEntry (.fresh k pts d)).Good :=
  ⟨h.toInv.setEntry_fresh hn pts d, h.account.setEntry h.sorted hk⟩

theorem LiveEntry.Ok.pts (he : e.Ok) (hg : e.key.isChannel = true → e.possibleGap = none)
    (pts : Int32) : LiveEntry.Ok { e with pts := pts } := by
  refine ⟨he.deferred, he.storable, he.bound, he.nonempty, ?_, he.account, he.accountGap⟩
  intro hk u hu
  simp [LiveEntry.buffer, hg hk] at hu

theorem Good.setPts (h : s.Good) (hk : k = .secondary → (s.entry .common).isSome = true)
    (hg : ∀ e, s.entry k = some e → k.isChannel = true → e.possibleGap = none) (pts : Int32)
    (now : Instant) : (s.setPts k pts now).Good := by
  rw [setPts_eq h.sorted]
  cases he : s.entry k with
  | none => exact h.setEntry_fresh he hk pts _
  | some e =>
    have hkey := h.entry_key he
    refine h.setEntry_known he { e with pts := pts } rfl (LiveEntry.Ok.pts (h.entryOk k e he) ?_ pts) rfl
    exact fun hc => hg e he (hkey ▸ hc)

theorem Good.setState (h : s.Good) (hn : s.hasPrimaryState = false) (state : ServerState)
    (now : Instant) : (s.setState state now).Good := by
  have hcommon : s.entry .common = none := by simpa [hasPrimaryState] using hn
  have hsecondary : s.entry .secondary = none := by
    cases he : s.entry .secondary with
    | none => rfl
    | some e =>
      have := h.account (by simp [he])
      simp [hcommon] at this
  have h1 := h.setEntry_fresh hcommon (by simp) state.pts (nextUpdatesDeadline now)
  have he1 := entry_setEntry h.sorted (.fresh .common state.pts (nextUpdatesDeadline now))
  have h2 := h1.setEntry_fresh (k := .secondary)
    (by rw [he1]; simpa [LiveEntry.fresh] using hsecondary)
    (by intro _; rw [he1]; simp [LiveEntry.fresh]) state.qts (nextUpdatesDeadline now)
  exact h2.congr rfl rfl rfl rfl

theorem Good.trySetChannelState (h : s.Good) (id : Int) (pts : Int32) (now : Instant) :
    (s.trySetChannelState id pts now).Good := by
  unfold MessageBoxes.trySetChannelState
  split
  next hn => exact h.setEntry_fresh (Option.isNone_iff_eq_none.mp hn) (by simp) pts _
  next => exact h

theorem Good.checkDeadlines (h : s.Good) (now : Instant) : (s.checkDeadlines now).2.Good := by
  refine ⟨h.toInv.checkDeadlines now, ?_⟩
  unfold MessageBoxes.checkDeadlines
  simp only
  split
  next => exact h.account
  next =>
    refine h.account.congr fun k => ?_
    show ((s.scanDeadlines now).entry k).isSome = _
    rw [entry_scanDeadlines h.toInv, Option.isSome_map]

theorem Good.popEntry (h : s.Good) (hn : s.ready (.channel c) = false) :
    (s.popEntry (.channel c)).Good := by
  refine ⟨h.toInv.popEntry hn, ?_⟩
  unfold Account
  rw [entry_popEntry h.sorted, entry_popEntry h.sorted, if_neg (by simp), if_neg (by simp)]
  exact h.account

/-! Socket batches, and what is released to them. -/

theorem Good.processUpdatesInner (h : s.Good) (updates : UpdatesLike) (force : List Key)
    (now : Instant) :
    (∃ s' result, s.processUpdatesInner updates force now = .ok (s', result) ∧ s'.Good) ∨
      s.processUpdatesInner updates force now = .error (.gap (s.tryBeginGetDiff .common now)) := by
  have hh := processUpdatesInner_handled h.toInv h.account updates force now
  generalize s.processUpdatesInner updates force now = r at hh
  cases hh with
  | rejected => exact Or.inr rfl
  | skipped => exact Or.inl ⟨s, _, rfl, h⟩
  | processed _ _ _ _ _ _ hb =>
    obtain ⟨hi, ha⟩ := hb.inv h.toInv h.account
    exact Or.inl ⟨_, _, rfl, hi, ha⟩

theorem Good.released (h : s.Good) : s.released.Good := by
  refine ⟨⟨h.sorted, h.entryOk, h.queue, ?_, ?_⟩, h.account⟩
  · exact (List.length_filter_le _ _).trans h.heldBound
  · exact fun held hh => h.heldOk held (List.mem_filter.mp hh).1

theorem releasedUpdates_valid (h : s.Inv) :
    ∀ u ∈ s.releasedUpdates, PtsInfo.validUpdate u = true := by
  intro u hu
  obtain ⟨held, hh, rfl⟩ := List.mem_map.mp hu
  exact (h.heldOk held (List.mem_filter.mp hh).1).valid

/-- The batch a release is processed as. -/
def releaseBatch (s : MessageBoxes) : UpdatesCombined :=
  updates s.releasedUpdates [] [] noDate noSeq

/-- Releasing updates never fails: what was held passed the batch check when it came. -/
theorem takeReleasedUpdates_eq (h : s.Good) (hr : s.heldReleaseReady = true) (now : Instant) :
    (s.releasedUpdates = [] ∧ s.takeReleasedUpdates now = .ok (s.released, none)) ∨
      ∃ s' result, s.takeReleasedUpdates now = .ok (s', some ⟨result, [], []⟩) ∧
        Batched (batchOf s.released s.releaseBatch [] now) s.released s.releasedUpdates s' result := by
  unfold MessageBoxes.takeReleasedUpdates
  rw [if_neg (by simp [hr])]
  by_cases hnil : s.releasedUpdates = []
  · exact Or.inl ⟨hnil, if_pos (by simp [hnil])⟩
  · right
    have hdate : 0 ≤ s.releaseBatch.date := by
      show (0 : Int32) ≤ noDate
      decide
    have hadapt : adapt (.updates (.updates s.releasedUpdates [] [] noDate noSeq)) =
        some s.releaseBatch := rfl
    obtain ⟨s', result, hrun, _, hb⟩ := processUpdatesInner_of_valid h.released.toInv
      h.released.account hadapt hdate rfl rfl (releasedUpdates_valid h.toInv) [] now
    refine ⟨s', result, ?_, hb⟩
    rw [if_neg (by simpa using hnil), hrun]
    rfl

theorem Good.takeReleasedUpdates (h : s.Good) (now : Instant) :
    ∃ s' result, s.takeReleasedUpdates now = .ok (s', result) ∧ s'.Good := by
  cases hr : s.heldReleaseReady with
  | false => exact ⟨s, none, by simp [MessageBoxes.takeReleasedUpdates, hr], h⟩
  | true =>
    rcases takeReleasedUpdates_eq h hr now with ⟨_, hrun⟩ | ⟨s', result, hrun, hb⟩
    · exact ⟨_, _, hrun, h.released⟩
    · obtain ⟨hi, ha⟩ := hb.inv h.released.toInv h.released.account
      exact ⟨_, _, hrun, hi, ha⟩

end MessageBoxes

end Grammers
