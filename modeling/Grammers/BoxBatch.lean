import Grammers.BoxLoop

namespace Grammers

open StableSort Reassembly LabelledPath

/-- A batch that went through the loop: the updates in sorted order, one step each,
and the account date and sequence kept or moved to those of the batch. -/
def Batched (b : Batch) (s : MessageBoxes) (updates : List Update) (s' : MessageBoxes)
    (result : List (Update × State)) : Prop :=
  ∃ p : Processing,
    Path (Processed b) ⟨s, [], false⟩ (sortUpdatesByKey updateSortKey updates) p ∧
      result = p.result ∧ (s' = p.boxes ∨ s' = { p.boxes with date := b.newDate, seq := b.newSeq })

variable {b : Batch} {p : Processing} {us : List Update} {s s' : MessageBoxes}
  {result : List (Update × State)} {now : Instant} {force : List Key} {updates : UpdatesLike}
  {combined : UpdatesCombined}

theorem foldlM_processUpdate (h : p.boxes.Inv) (ha : p.boxes.Account)
    (hv : ∀ u ∈ us, PtsInfo.validUpdate u = true) :
    ∃ p', us.foldlM (processUpdate b) p = .ok p' ∧ Path (Processed b) p us p' := by
  induction us generalizing p with
  | nil => exact ⟨p, rfl, Path.nil⟩
  | cons u us ih =>
    obtain ⟨p1, h1, hp1⟩ := processUpdate_spec (b := b) h (hv u (by simp))
    obtain ⟨hi, hacc⟩ := hp1.inv h ha
    obtain ⟨p2, h2, hp2⟩ := ih hi hacc fun v hm => hv v (by simp [hm])
    refine ⟨p2, ?_, Path.cons hp1 hp2⟩
    rw [List.foldlM_cons, h1]
    exact h2

theorem mem_sortUpdatesByKey {u : Update} :
    u ∈ sortUpdatesByKey updateSortKey us ↔ u ∈ us := by
  rw [sortUpdatesByKey_eq]
  exact (sortByKey_perm updateSortKey us).mem_iff

theorem processBatch_spec (h : s.Inv) (ha : s.Account)
    (hv : ∀ u ∈ us, PtsInfo.validUpdate u = true) :
    ∃ s' result, s.processBatch b us = .ok (s', result) ∧ Batched b s us s' result := by
  obtain ⟨p, hfold, hp⟩ := foldlM_processUpdate (b := b) (p := ⟨s, [], false⟩) h ha
    fun u hu => hv u (mem_sortUpdatesByKey.mp hu)
  simp only [MessageBoxes.processBatch, hfold, bind, Except.bind, pure, Except.pure]
  split
  next => exact ⟨_, _, rfl, p, hp, rfl, Or.inr rfl⟩
  next => exact ⟨_, _, rfl, p, hp, rfl, Or.inl rfl⟩

theorem Batched.inv (hb : Batched b s us s' result) (h : s.Inv) (ha : s.Account) :
    s'.Inv ∧ s'.Account := by
  obtain ⟨p, hp, _, hs⟩ := hb
  obtain ⟨hi, hacc⟩ := Processed.path_inv hp h ha
  rcases hs with rfl | rfl
  · exact ⟨hi, hacc⟩
  · exact ⟨hi.congr rfl rfl rfl rfl, hacc⟩

/-- Every way a batch can end: refused whole, skipped as already handled, or processed. -/
inductive Handled (s : MessageBoxes) (updates : UpdatesLike) (force : List Key) (now : Instant) :
    Except Exit (MessageBoxes × UpdateAndPeers) → Prop
  | rejected : Handled s updates force now (.error (.gap (s.tryBeginGetDiff .common now)))
  | skipped {combined : UpdatesCombined} (ha : adapt updates = some combined) :
      Handled s updates force now (.ok (s, ⟨[], combined.users, combined.chats⟩))
  | processed {combined : UpdatesCombined} {b : Batch} {s' : MessageBoxes}
      {result : List (Update × State)} (ha : adapt updates = some combined)
      (hv : ∀ u ∈ combined.updates, PtsInfo.validUpdate u = true) (hnow : b.now = now)
      (hforce : b.force = force) (hdate : b.newDate = s.date ∨ 0 ≤ b.newDate)
      (hseq : b.newSeq = s.seq ∨ 0 ≤ b.newSeq)
      (hb : Batched b s combined.updates s' result) :
      Handled s updates force now (.ok (s', ⟨result, combined.users, combined.chats⟩))

/-- The date and sequence a batch is delivered at. -/
def batchOf (s : MessageBoxes) (combined : UpdatesCombined) (force : List Key) (now : Instant) :
    Batch :=
  let accountPending := force.isEmpty && (s.isGettingDiff .common || s.isGettingDiff .secondary)
  { now := now
    force := force
    newDate := if combined.date = noDate ∨ accountPending then s.date else combined.date
    newSeq := if combined.seq = noSeq ∨ accountPending then s.seq else combined.seq }

theorem processed_of_valid (h : s.Inv) (hacc : s.Account) (ha : adapt updates = some combined)
    (hd : 0 ≤ combined.date) (hq : 0 ≤ combined.seq)
    (hv : ∀ u ∈ combined.updates, PtsInfo.validUpdate u = true) (force : List Key) (now : Instant) :
    ∃ s' result, s.processBatch (batchOf s combined force now) combined.updates = .ok (s', result) ∧
      Handled s updates force now (.ok (s', ⟨result, combined.users, combined.chats⟩)) := by
  obtain ⟨s', result, hrun, hb⟩ := processBatch_spec (b := batchOf s combined force now) h hacc hv
  refine ⟨s', result, hrun, .processed ha hv rfl rfl ?_ ?_ hb⟩
  · simp only [batchOf]
    split
    next => exact Or.inl rfl
    next => exact Or.inr hd
  · simp only [batchOf]
    split
    next => exact Or.inl rfl
    next => exact Or.inr hq

theorem processUpdatesInner_handled (h : s.Inv) (hacc : s.Account) (updates : UpdatesLike)
    (force : List Key) (now : Instant) :
    Handled s updates force now (s.processUpdatesInner updates force now) := by
  unfold MessageBoxes.processUpdatesInner
  simp only
  cases ha : adapt updates with
  | none => exact .rejected
  | some combined =>
    simp only
    split
    next => exact .rejected
    next hneg =>
      simp only [not_or, Int32.not_lt] at hneg
      have hrest : ∀ deliver : MessageBoxes × List (Update × State) →
          Except Exit (MessageBoxes × UpdateAndPeers),
          (∀ s' result, deliver (s', result) =
            .ok (s', ⟨result, combined.users, combined.chats⟩)) →
          Handled s updates force now
            (if combined.updates.any (fun u => !PtsInfo.validUpdate u) = true then
              .error (.gap (s.tryBeginGetDiff .common now))
            else s.processBatch (batchOf s combined force now) combined.updates >>= deliver) := by
        intro deliver hdeliver
        split
        next => exact .rejected
        next hany =>
          have hv : ∀ u ∈ combined.updates, PtsInfo.validUpdate u = true := by
            simpa using hany
          obtain ⟨s', result, hrun, hh⟩ := processed_of_valid h hacc ha hneg.1 hneg.2.1 hv
            force now
          rw [hrun]
          change Handled s updates force now (deliver (s', result))
          rw [hdeliver]
          exact hh
      split
      next =>
        split
        next => exact hrest _ fun _ _ => rfl
        next => exact .skipped ha
        next => exact .rejected
      next => exact hrest _ fun _ _ => rfl

/-- A valid batch without a sequence number is always processed. -/
theorem processUpdatesInner_of_valid (h : s.Inv) (hacc : s.Account)
    (ha : adapt updates = some combined) (hd : 0 ≤ combined.date) (hq : combined.seq = noSeq)
    (hqs : combined.seqStart = noSeq)
    (hv : ∀ u ∈ combined.updates, PtsInfo.validUpdate u = true) (force : List Key) (now : Instant) :
    ∃ s' result, s.processUpdatesInner updates force now =
        .ok (s', ⟨result, combined.users, combined.chats⟩) ∧
      s.processBatch (batchOf s combined force now) combined.updates = .ok (s', result) ∧
      Batched (batchOf s combined force now) s combined.updates s' result := by
  obtain ⟨s', result, hrun, hb⟩ := processBatch_spec (b := batchOf s combined force now) h hacc hv
  refine ⟨s', result, ?_, hrun, hb⟩
  have hneg : ¬(combined.date < 0 ∨ combined.seq < 0 ∨ combined.seqStart < 0) := by
    rw [hq, hqs]
    simpa [noSeq] using hd
  have hany : ¬combined.updates.any (fun u => !PtsInfo.validUpdate u) = true := by
    simpa using hv
  unfold MessageBoxes.processUpdatesInner
  simp only [ha]
  rw [if_neg hneg, if_neg (fun hc => hc.1 hqs), if_neg hany]
  rw [show Batch.mk _ _ _ _ = batchOf s combined force now from rfl, hrun]
  rfl

end Grammers
