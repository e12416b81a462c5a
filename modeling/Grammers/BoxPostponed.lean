import Grammers.BoxChannelOps

namespace Grammers

open StableSort LabelledPath

/-- What an update of a batch adds to the held ones: itself while its channel is under
recovery, and what waits in the gap of a channel whose recovery it starts. -/
def Processing.postpones (b : Batch) (p : Processing) : Update → List (Int × Update)
  | .channelTooLong c _ =>
    if p.boxes.isGettingDiff (.channel c) then []
    else gapHeld (.channel c) ((p.boxes.entry (.channel c)).bind LiveEntry.possibleGap)
  | u =>
    match u.key with
    | some (.channel c) =>
      if .channel c ∉ b.force ∧ p.boxes.isGettingDiff (.channel c) = true then [(c, u)] else []
    | _ => []

def Processing.postponed (b : Batch) : Processing → List Update → List (Int × Update)
  | _, [] => []
  | p, u :: us =>
    match processUpdate b p u with
    | .ok p' => p.postpones b u ++ Processing.postponed b p' us
    | .error _ => []

/-- What the updates of a channel difference add to the held ones, oldest first. -/
def MessageBoxes.postponedBy (s : MessageBoxes) (c : Int) (diff : ChannelDifferenceParts)
    (now : Instant) : List (Int × Update) :=
  match s.beginChannelDifference c diff now with
  | .ok s1 => Processing.postponed ⟨now, [.channel c], s1.date, s1.seq⟩ ⟨s1, [], false⟩
      (sortUpdatesByKey updateSortKey (retainValidUpdates diff.otherUpdates))
  | .error _ => []

variable {b : Batch} {p p' : Processing} {u : Update} {us : List Update} {s s' : MessageBoxes}
  {e : LiveEntry} {c : Int} {result : List (Update × State)} {now : Instant}

theorem resetDeadline_held (s : MessageBoxes) (k : Key) (deadline : Instant) :
    (s.resetDeadline k deadline).heldUpdates = s.heldUpdates ∧
      (s.resetDeadline k deadline).heldReleaseReady = s.heldReleaseReady := by
  unfold MessageBoxes.resetDeadline MessageBoxes.updateEntry
  simp only
  split
  next => exact ⟨rfl, rfl⟩
  next => exact ⟨rfl, rfl⟩

theorem postpones_ordinary (hu : ∀ c pts, u ≠ .channelTooLong c pts) (b : Batch) (p : Processing) :
    p.postpones b u = match u.key with
      | some (.channel c) =>
        if .channel c ∉ b.force ∧ p.boxes.isGettingDiff (.channel c) = true then [(c, u)] else []
      | _ => [] := by
  cases u with
  | channelTooLong c pts => exact absurd rfl (hu c pts)
  | _ => rfl

/-- What an update adds are updates of the channel it is about; of a channel whose
difference it belongs to, only what that channel's gap contains. -/
theorem postpones_about {held : Int × Update} (hm : held ∈ p.postpones b u) :
    u.key = some (.channel held.1) ∧ (.channel held.1 ∈ b.force →
      ∃ e, p.boxes.entry (.channel held.1) = some e ∧ e.possibleGap ≠ none) := by
  by_cases hu : ∃ c pts, u = .channelTooLong c pts
  · obtain ⟨c, pts, rfl⟩ := hu
    simp only [Processing.postpones] at hm
    split at hm
    next => simp at hm
    next =>
      cases he : p.boxes.entry (.channel c) with
      | none => simp [he, gapHeld] at hm
      | some e =>
        cases hgap : e.possibleGap with
        | none => simp [he, hgap, gapHeld] at hm
        | some gap =>
          simp only [he, Option.bind_some, hgap, gapHeld] at hm
          obtain ⟨v, _, rfl⟩ := List.mem_map.mp hm
          exact ⟨rfl, fun _ => ⟨e, he, by simp [hgap]⟩⟩
  · rw [postpones_ordinary fun c pts h => hu ⟨c, pts, h⟩] at hm
    split at hm
    next c hk =>
      split at hm
      next hnot =>
        obtain rfl := List.mem_singleton.mp hm
        exact ⟨hk, fun hf => absurd hf hnot.1⟩
      next => simp at hm
    next => simp at hm

theorem postpones_of_info {info : PtsInfo} (hu : ∀ c pts, u ≠ .channelTooLong c pts)
    (hf : PtsInfo.fromUpdate u = some info) (b : Batch) (p : Processing)
    (hidle : ∀ c, info.key = .channel c → .channel c ∈ b.force ∨
      p.boxes.isGettingDiff (.channel c) = false) : p.postpones b u = [] := by
  have hkey : u.key = some info.key := by
    cases u with
    | channelTooLong c pts => exact absurd rfl (hu c pts)
    | _ => exact congrArg (Option.map PtsInfo.key) hf
  rw [postpones_ordinary hu, hkey]
  cases hk : info.key with
  | common => rfl
  | secondary => rfl
  | channel c =>
    refine if_neg ?_
    rintro ⟨hnot, hpend⟩
    rcases hidle c hk with hforce | hidle
    · exact hnot hforce
    · simp [hidle] at hpend

/-- A channel that is too far behind is made known without a gap. -/
theorem admitTooLong_idle (h : s.Inv) (hidle : s.isGettingDiff (.channel c) = false)
    (pts : Option Int32) (deadline : Instant) {s1 : MessageBoxes}
    (hs1 : s1 = s.admitTooLong (.channel c) pts deadline) :
    s1.heldUpdates = s.heldUpdates ∧ s1.heldReleaseReady = s.heldReleaseReady ∧
      s1.isGettingDiff (.channel c) = false ∧
      (s1.entry (.channel c)).bind LiveEntry.possibleGap =
        (s.entry (.channel c)).bind LiveEntry.possibleGap := by
  rcases MessageBoxes.admitTooLong_cases s (.channel c) pts deadline with he | ⟨hnone, q, _, _, he⟩
  · rw [hs1, he]
    exact ⟨rfl, rfl, hidle, rfl⟩
  · have hentry := MessageBoxes.entry_setEntry_of_key h.sorted (.fresh (.channel c) q deadline)
      (k := .channel c) rfl (.channel c)
    rw [if_pos rfl] at hentry
    rw [hs1, he, hentry, hnone, MessageBoxes.isGettingDiff_of_entry hentry]
    exact ⟨rfl, rfl, rfl, rfl⟩

/-- The held updates after one update of a batch. -/
theorem Processed.held (hp : Processed b p u p') (h : p.boxes.Inv) :
    p'.boxes.heldReleaseReady = p.boxes.heldReleaseReady ∧
      p'.boxes.heldUpdates = latest maxHeldUpdates (p.boxes.heldUpdates ++ p.postpones b u) := by
  have hsame : p.boxes.heldUpdates = latest maxHeldUpdates (p.boxes.heldUpdates ++ []) := by
    rw [List.append_nil, latest_of_short h.heldBound]
  cases hp with
  | tooLongPending hpend =>
    refine ⟨rfl, ?_⟩
    rw [Processing.postpones, if_pos hpend]
    exact hsame
  | @tooLong c pts hidle =>
    obtain ⟨s1, hs1⟩ : ∃ s1, s1 = p.boxes.admitTooLong (.channel c) pts (nextUpdatesDeadline b.now) :=
      ⟨_, rfl⟩
    have h1 : s1.Inv := hs1 ▸ h.admitTooLong (.channel c) pts (nextUpdatesDeadline b.now)
    obtain ⟨hheld, hready, hpend, hgap⟩ := admitTooLong_idle h hidle pts _ hs1
    simp only [← hs1]
    rw [Processing.postpones, if_neg (by simp [hidle]), ← hgap]
    cases he : s1.entry (.channel c) with
    | none =>
      rw [MessageBoxes.tryBeginGetDiff_of_none he, hheld]
      exact ⟨hready, hsame⟩
    | some e =>
      rw [MessageBoxes.isGettingDiff_of_entry he] at hpend
      obtain ⟨o, ho⟩ := MessageBoxes.tryBeginGetDiff_eq h1 he hpend b.now
      rw [ho, ← hheld]
      exact ⟨hready, rfl⟩
  | unordered hu hf =>
    refine ⟨rfl, ?_⟩
    have hkey : u.key = none := by
      cases u with
      | channelTooLong c pts => exact absurd rfl (hu c pts)
      | _ => exact congrArg (Option.map PtsInfo.key) hf
    rw [postpones_ordinary hu, hkey]
    exact hsame
  | @forced u info hu hf hk =>
    obtain ⟨hheld, hready⟩ := resetDeadline_held p.boxes info.key (nextUpdatesDeadline b.now)
    refine ⟨hready, hheld.trans ?_⟩
    rw [postpones_of_info hu.ordinary hf b p fun c hc => Or.inl (hc ▸ hk)]
    exact hsame
  | @postponed u info hu _ hnot hpend =>
    rw [postpones_ordinary hu.ordinary, hu.update_key]
    cases hk : info.key with
    | common => exact ⟨rfl, hsame⟩
    | secondary => exact ⟨rfl, hsame⟩
    | channel c =>
      rw [hk] at hnot hpend
      obtain ⟨o, ho⟩ := MessageBoxes.holdChannelUpdate_eq h.heldBound c u
      simp only [MessageBoxes.postpone, ho, if_pos (show _ ∧ _ from ⟨hnot, hpend⟩)]
      exact ⟨trivial, trivial⟩
  | preLogin hf hk hkey =>
    have hu : ∀ c pts, u ≠ .channelTooLong c pts := by
      rintro c pts rfl
      simp only [PtsInfo.fromUpdate, PtsInfo.rawFromUpdate, Option.filter_eq_some_iff,
        Option.map_eq_some_iff] at hf
      obtain ⟨⟨q, _, rfl⟩, _⟩ := hf
      simp at hkey
    rw [postpones_of_info hu hf b p (by simp [hkey])]
    exact ⟨rfl, hsame⟩
  | applied hu hf hk hidle =>
    rw [postpones_of_info hu.ordinary hf b p fun c hc => Or.inr (hc ▸ hidle)]
    exact ⟨rfl, hsame⟩

/-- The held updates after a batch of updates. -/
theorem foldlM_held (h : p.boxes.Inv) (ha : p.boxes.Account)
    (hv : ∀ u ∈ us, PtsInfo.validUpdate u = true) (hrun : us.foldlM (processUpdate b) p = .ok p') :
    p'.boxes.heldReleaseReady = p.boxes.heldReleaseReady ∧
      p'.boxes.heldUpdates = latest maxHeldUpdates (p.boxes.heldUpdates ++ p.postponed b us) := by
  induction us generalizing p with
  | nil =>
    obtain rfl := Except.ok.inj hrun
    exact ⟨rfl, by rw [Processing.postponed, List.append_nil, latest_of_short h.heldBound]⟩
  | cons u us ih =>
    obtain ⟨p1, h1, hp1⟩ := processUpdate_spec (b := b) h (hv u (by simp))
    obtain ⟨hi, hacc⟩ := hp1.inv h ha
    rw [List.foldlM_cons, h1] at hrun
    obtain ⟨hr1, hh1⟩ := hp1.held h
    obtain ⟨hr2, hh2⟩ := ih hi hacc (fun v hm => hv v (by simp [hm])) hrun
    refine ⟨hr2.trans hr1, ?_⟩
    rw [hh2, hh1, latest_append, List.append_assoc, Processing.postponed, h1]

/-- The updates of a channel's difference add nothing of that channel. -/
theorem postponed_foreign (h : p.boxes.Inv) (ha : p.boxes.Account)
    (hv : ∀ u ∈ us, PtsInfo.validUpdate u = true) (hk : .channel c ∈ b.force)
    (he : p.boxes.entry (.channel c) = some e) (hg : e.possibleGap = none) :
    ∀ held ∈ p.postponed b us, held.1 ≠ c ∧ ∃ u ∈ us, u.key = some (.channel held.1) := by
  induction us generalizing p e with
  | nil => simp [Processing.postponed]
  | cons u us ih =>
    obtain ⟨p1, h1, hp1⟩ := processUpdate_spec (b := b) h (hv u (by simp))
    obtain ⟨hi, hacc⟩ := hp1.inv h ha
    obtain ⟨e1, he1, hsteady, _⟩ := hp1.forced_entry h hk he
    intro held hm
    rw [Processing.postponed, h1] at hm
    rcases List.mem_append.mp hm with hm | hm
    · obtain ⟨hu, hforced⟩ := postpones_about hm
      refine ⟨?_, u, by simp, hu⟩
      rintro rfl
      obtain ⟨e', he', hne⟩ := hforced hk
      obtain rfl := Option.some.inj (he.symm.trans he')
      exact hne hg
    · obtain ⟨hne, v, hvm, hu⟩ := ih hi hacc (fun v hm => hv v (by simp [hm])) he1
        (hsteady.gap hg) held hm
      exact ⟨hne, v, by simp [hvm], hu⟩

theorem processBatch_held (h : s.Inv) (ha : s.Account)
    (hv : ∀ u ∈ us, PtsInfo.validUpdate u = true) (hrun : s.processBatch b us = .ok (s', result)) :
    s'.heldReleaseReady = s.heldReleaseReady ∧ s'.heldUpdates = latest maxHeldUpdates
      (s.heldUpdates ++ Processing.postponed b ⟨s, [], false⟩ (sortUpdatesByKey updateSortKey us)) := by
  have hv' : ∀ u ∈ sortUpdatesByKey updateSortKey us, PtsInfo.validUpdate u = true :=
    fun u hu => hv u (mem_sortUpdatesByKey.mp hu)
  obtain ⟨p, hfold, _⟩ := foldlM_processUpdate (b := b) (p := ⟨s, [], false⟩) h ha hv'
  have hheld := foldlM_held (p := ⟨s, [], false⟩) h ha hv' hfold
  simp only [MessageBoxes.processBatch, hfold, bind, Except.bind, pure, Except.pure] at hrun
  split at hrun
  next =>
    obtain ⟨rfl, _⟩ := Prod.mk.inj (Except.ok.inj hrun)
    exact hheld
  next =>
    obtain ⟨rfl, _⟩ := Prod.mk.inj (Except.ok.inj hrun)
    exact hheld

/-- What is held once the updates of a channel difference are processed. -/
theorem held_after_difference {diff : ChannelDifferenceParts} {s1 s2 : MessageBoxes}
    (hbegin : s.beginChannelDifference c diff now = .ok s1) (h : s1.Good)
    (he : s1.entry (.channel c) = some e) (hg : e.possibleGap = none) (hnow : b.now = now)
    (hforce : b.force = [.channel c]) (hdate : b.newDate = s1.date) (hseq : b.newSeq = s1.seq)
    (hrun : s1.processBatch b (retainValidUpdates diff.otherUpdates) = .ok (s2, result)) :
    s2.heldReleaseReady = s1.heldReleaseReady ∧
      s2.heldUpdates = latest maxHeldUpdates (s1.heldUpdates ++ s.postponedBy c diff now) ∧
      ∀ held ∈ s.postponedBy c diff now, held.1 ≠ c ∧
        ∃ u ∈ diff.otherUpdates, u.key = some (.channel held.1) := by
  obtain rfl : b = ⟨now, [.channel c], s1.date, s1.seq⟩ := by
    cases b
    simp_all
  have hv : ∀ u ∈ retainValidUpdates diff.otherUpdates, PtsInfo.validUpdate u = true :=
    fun u hu => (List.mem_filter.mp hu).2
  obtain ⟨hready, hheld⟩ := processBatch_held h.toInv h.account hv hrun
  have heq : s.postponedBy c diff now = Processing.postponed ⟨now, [.channel c], s1.date, s1.seq⟩
      ⟨s1, [], false⟩ (sortUpdatesByKey updateSortKey (retainValidUpdates diff.otherUpdates)) := by
    rw [MessageBoxes.postponedBy, hbegin]
  rw [heq]
  refine ⟨hready, hheld, fun held hm => ?_⟩
  obtain ⟨hne, u, hu, hk⟩ := postponed_foreign (p := ⟨s1, [], false⟩) h.toInv h.account
    (fun u hu => hv u (mem_sortUpdatesByKey.mp hu)) (List.mem_singleton.mpr rfl) he hg held hm
  exact ⟨hne, u, (List.mem_filter.mp (mem_sortUpdatesByKey.mp hu)).1, hk⟩

end Grammers
