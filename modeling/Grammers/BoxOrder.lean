import Grammers.BoxArrival

namespace Grammers

open StableSort Reassembly LabelledPath

/-- An update of a key that leads from one position to a later one. -/
def Extends (k : Key) (p : Int) (u : Update) (q : Int) : Prop :=
  ∃ info, PtsInfo.fromUpdate u = some info ∧ info.key = k ∧ 1 ≤ info.count.toInt ∧
    info.pts.toInt = p + info.count.toInt ∧ q = info.pts.toInt

/-- The updates a batch carries. -/
def carried (updates : UpdatesLike) : List Update :=
  ((adapt updates).map UpdatesCombined.updates).getD []

/-- A batch without a sequence number that the checks before the loop let through. -/
def Accepted (updates : UpdatesLike) : Prop :=
  ∃ combined, adapt updates = some combined ∧ 0 ≤ combined.date ∧ combined.seq = noSeq ∧
    combined.seqStart = noSeq ∧ ∀ u ∈ combined.updates, PtsInfo.validUpdate u = true

/-- The updates about a key in a run of batches, as they come. -/
def arrivalsOf (k : Key) (batches : List (Instant × UpdatesLike)) : List Update :=
  batches.flatMap fun batch => (carried batch.2).filter fun u => u.key = some k

def socketCalls (batches : List (Instant × UpdatesLike)) : List (Instant × SocketCall) :=
  batches.map fun batch => (batch.1, .processUpdates batch.2)

variable {s : MessageBoxes} {e : LiveEntry} {k : Key} {u : Update} {p q : Int} {chain : List Update}
  {batches : List (Instant × UpdatesLike)}

/-- The updates of an accepted batch that are about a key and lead forward may wait for it. -/
theorem Extends.storable (h : Extends k p u q) (hv : PtsInfo.validUpdate u = true) : Storable k u := by
  obtain ⟨info, hf, hk, hcount, _⟩ := h
  refine ⟨?_, hv, info, hf, hk⟩
  rintro c pts rfl
  obtain ⟨hraw, _⟩ := PtsInfo.fromUpdate_eq_some.mp hf
  obtain ⟨q, _, rfl⟩ := Option.map_eq_some_iff.mp hraw
  exact absurd hcount (show ¬1 ≤ (0 : Int32).toInt by decide)

theorem Extends.mem_of_path (h : Path (Extends k) p chain q) (hu : u ∈ chain) :
    ∃ x y, Extends k x u y := by
  induction h with
  | nil => simp at hu
  | @cons x y z v chain hl _ ih =>
    rcases List.mem_cons.mp hu with rfl | hu
    · exact ⟨x, y, hl⟩
    · exact ih hu

/-- A chain of updates is one of intervals that are not empty. -/
theorem Extends.chain_of_path (h : Path (Extends k) p chain q)
    (hv : ∀ u ∈ chain, PtsInfo.validUpdate u = true) :
    Chain updateSortKey updateEnd p chain q ∧ ∀ u ∈ chain, updateSortKey u < updateEnd u := by
  induction h with
  | nil => exact ⟨Path.nil, by simp⟩
  | @cons x y z u chain hl _ ih =>
    obtain ⟨hchain, hlt⟩ := ih fun v hm => hv v (by simp [hm])
    obtain ⟨info', hf', _, hstart, hend⟩ := (Extends.storable hl (hv u (by simp))).ptsInfo
    obtain ⟨info, hf, hk, hcount, hpts, hy⟩ := hl
    obtain rfl := Option.some.inj (hf.symm.trans hf')
    rw [PtsInfo.start] at hstart
    refine ⟨Path.cons ⟨by omega, by omega⟩ hchain, ?_⟩
    intro v hm
    rcases List.mem_cons.mp hm with rfl | hm
    · omega
    · exact hlt v hm

theorem carried_valid {updates : UpdatesLike} (h : Accepted updates) :
    ∀ u ∈ carried updates, PtsInfo.validUpdate u = true := by
  obtain ⟨combined, ha, _, _, _, hv⟩ := h
  simpa [carried, ha] using hv

/-- An accepted batch is processed, and one key sees its updates arrive in sorted order. -/
theorem exec_arrivals (h : s.Good) {updates : UpdatesLike} (hb : Accepted updates)
    (he : s.entry k = some e) (hnot : e.recoveryPending = false)
    (hu : ∀ u ∈ carried updates, u.key = some k → Storable k u) (now : Instant) :
    ∃ s' delivered e', SocketCall.exec (.processUpdates updates) s now = .ok (s', delivered) ∧ s'.Good ∧
      s'.entry k = some e' ∧ e'.recoveryPending = false ∧
      e.acceptAll ((sortByKey updateSortKey (carried updates)).filter fun u => u.key = some k) =
        (e'.buffer, (delivered.filter (names k)).map Prod.fst) := by
  obtain ⟨combined, ha, hdate, hseq, hstart, hv⟩ := hb
  have hcarried : carried updates = combined.updates := by simp [carried, ha]
  rw [hcarried] at hu ⊢
  obtain ⟨s', result, hrun, _, hbatch⟩ := processUpdatesInner_of_valid h.toInv h.account ha hdate
    hseq hstart hv [] now
  obtain ⟨hi, hacc⟩ := hbatch.inv h.toInv h.account
  obtain ⟨e', he', hnot', hall⟩ := hbatch.arrivals h.toInv h.account rfl he hnot hu
  refine ⟨s', result, e', ?_, ⟨hi, hacc⟩, he', hnot', hall⟩
  simp [SocketCall.exec, MessageBoxes.processUpdates, hrun]

/-- A run of accepted batches, as one key sees it. -/
theorem runSocket_arrivals (h : s.Good) (hb : ∀ batch ∈ batches, Accepted batch.2)
    (he : s.entry k = some e) (hnot : e.recoveryPending = false)
    (hu : ∀ u ∈ arrivalsOf k batches, Storable k u) :
    ∃ s' delivered e' as, runSocket s (socketCalls batches) = .ok (s', delivered) ∧ s'.Good ∧
      s'.entry k = some e' ∧ e'.recoveryPending = false ∧ as.Perm (arrivalsOf k batches) ∧
      e.acceptAll as = (e'.buffer, (delivered.filter (names k)).map Prod.fst) := by
  induction batches generalizing s e with
  | nil => exact ⟨s, [], e, [], rfl, h, he, hnot, List.Perm.nil, rfl⟩
  | cons batch batches ih =>
    obtain ⟨now, updates⟩ := batch
    have hhead : ∀ u ∈ carried updates, u.key = some k → Storable k u := fun u hm hk =>
      hu u (List.mem_append_left _ (List.mem_filter.mpr ⟨hm, decide_eq_true hk⟩))
    obtain ⟨s1, ds1, e1, hr1, h1, he1, hnot1, hall1⟩ :=
      exec_arrivals h (hb (now, updates) (by simp)) he hnot hhead now
    obtain ⟨s2, ds2, e2, as, hr2, h2, he2, hnot2, hperm, hall2⟩ :=
      ih h1 (fun b hm => hb b (by simp [hm])) he1 hnot1 fun u hm => hu u (List.mem_append_right _ hm)
    have hsorted : ((sortByKey updateSortKey (carried updates)).filter fun u => u.key = some k).Perm
        ((carried updates).filter fun u => u.key = some k) :=
      (sortByKey_perm updateSortKey _).filter _
    refine ⟨s2, ds1 ++ ds2, e2, _ ++ as, ?_, h2, he2, hnot2, hsorted.append hperm, ?_⟩
    · show runSocket s ((now, .processUpdates updates) :: socketCalls batches) = _
      simp [runSocket, hr1, hr2, bind, Except.bind, pure, Except.pure]
    · unfold LiveEntry.acceptAll at hall1 hall2 ⊢
      rw [arriveAll_append, hall1, hall2]
      simp

/-- However the updates of a chain are repeated, reordered and split into batches,
among updates of other keys, each of them is delivered once and in order. -/
theorem arrival_order_irrelevant {s : MessageBoxes} (h : Reachable s) {k : Key} {e : LiveEntry}
    (he : s.entry k = some e) (hnot : e.recoveryPending = false) (hgap : e.possibleGap = none)
    {chain : List Update} {q : Int} (hc : Path (Extends k) e.pts.toInt chain q)
    (batches : List (Instant × UpdatesLike)) (hb : ∀ batch ∈ batches, Accepted batch.2)
    (hsub : ∀ u ∈ arrivalsOf k batches, u ∈ chain) (hall : ∀ u ∈ chain, u ∈ arrivalsOf k batches)
    (hlen : (arrivalsOf k batches).length ≤ maxHeldUpdates) :
    ∃ s' delivered e', runSocket s (socketCalls batches) = .ok (s', delivered) ∧
      (delivered.filter (names k)).map Prod.fst = chain ∧
      s'.entry k = some e' ∧ e'.pts.toInt = q ∧ e'.possibleGap = none := by
  have hvalid : ∀ u ∈ arrivalsOf k batches, PtsInfo.validUpdate u = true := by
    intro u hu
    obtain ⟨batch, hm, hu⟩ := List.mem_flatMap.mp hu
    exact carried_valid (hb batch hm) u (List.mem_filter.mp hu).1
  have hstorable : ∀ u ∈ arrivalsOf k batches, Storable k u := by
    intro u hu
    obtain ⟨x, y, hx⟩ := Extends.mem_of_path hc (hsub u hu)
    exact hx.storable (hvalid u hu)
  obtain ⟨hchain, hlt⟩ := Extends.chain_of_path hc fun u hu => hvalid u (hall u hu)
  obtain ⟨s', delivered, e', as, hrun, h', he', hnot', hperm, haccept⟩ :=
    runSocket_arrivals h.good hb he hnot hstorable
  have hbuffer : e.buffer = ⟨e.pts.toInt, []⟩ := by simp [LiveEntry.buffer, hgap]
  have hcomplete := arriveAll_complete popOrder_perm popOrder_ascending hchain hlt
    (fun u (hu : u ∈ as) => hsub u (hperm.mem_iff.mp hu))
    (fun u hu => hperm.mem_iff.mpr (hall u hu)) (hperm.length_eq.le.trans hlen)
  rw [LiveEntry.acceptAll, hbuffer, hcomplete] at haccept
  obtain ⟨hbuf, hdelivered⟩ := Prod.mk.inj haccept
  refine ⟨s', delivered, e', hrun, hdelivered.symm, he', ?_, ?_⟩
  · exact (congrArg Buffer.position hbuf).symm
  · have hkept : e'.buffer.kept = [] := by rw [← hbuf]
    cases hg : e'.possibleGap with
    | none => rfl
    | some gap =>
      have hne := (h'.entryOk k e' he').nonempty gap hg
      exact absurd (by simpa [LiveEntry.buffer, hg] using hkept) hne

/-- Two deletions of an account after login: the second one comes first, next to an update
of a channel, and again after the first one. -/
theorem arrival_order_irrelevant_repeated :
    let s := (MessageBoxes.new 0).setState ⟨5, 0, 1, 1⟩ 0
    let batches : List (Instant × UpdatesLike) :=
      [(0, .updates (.updates [.deleteMessages [] 7 1, .readChannelInbox 9 1 4] [] [] 3 0)),
        (1, .affectedMessages ⟨6, 1⟩), (2, .affectedMessages ⟨7, 1⟩)]
    ∃ s' delivered e', runSocket s (socketCalls batches) = .ok (s', delivered) ∧
      (delivered.filter (names .common)).map Prod.fst =
        [.deleteMessages [] 6 1, .deleteMessages [] 7 1] ∧
      s'.entry .common = some e' ∧ e'.pts.toInt = 7 ∧ e'.possibleGap = none := by
  intro s batches
  have he : s.entry .common = some (.fresh .common 5 (nextUpdatesDeadline 0)) := by decide
  have hc : Path (Extends .common) 5 [.deleteMessages [] 6 1, .deleteMessages [] 7 1] 7 :=
    Path.cons ⟨⟨.common, 6, 1⟩, by decide, rfl, by decide, by decide, rfl⟩
      (Path.cons ⟨⟨.common, 7, 1⟩, by decide, rfl, by decide, by decide, rfl⟩ Path.nil)
  have hb : ∀ batch ∈ batches, Accepted batch.2 := by
    intro batch hm
    simp only [batches, List.mem_cons, List.not_mem_nil, or_false] at hm
    rcases hm with rfl | rfl | rfl
    · exact ⟨_, rfl, by decide, by decide, by decide, by decide⟩
    · exact ⟨_, rfl, by decide, by decide, by decide, by decide⟩
    · exact ⟨_, rfl, by decide, by decide, by decide, by decide⟩
  exact arrival_order_irrelevant (reachable_setState ⟨5, 0, 1, 1⟩ 0) he rfl rfl hc batches hb
    (by decide) (by decide) (by decide)

/-- A malformed update of a channel makes the batch it shares with an account update fail. -/
theorem arrival_lost_with_malformed_update :
    let s := (MessageBoxes.new 0).setState ⟨5, 0, 1, 1⟩ 0
    let u := Update.deleteMessages [] 6 1
    let batches : List (Instant × UpdatesLike) :=
      [(0, .updates (.updates [u, .deleteChannelMessages 7 [] 1 5] [] [] 0 0))]
    Reachable s ∧ s.entry .common = some (.fresh .common 5 (nextUpdatesDeadline 0)) ∧
      Path (Extends .common) 5 [u] 6 ∧ arrivalsOf .common batches = [u] ∧
      (Update.deleteChannelMessages 7 [] 1 5).key = some (.channel 7) ∧
      (runSocket s (socketCalls batches)).map Prod.snd = .ok [] :=
  ⟨reachable_setState ⟨5, 0, 1, 1⟩ 0, by decide,
    Path.single ⟨⟨.common, 6, 1⟩, by decide, rfl, by decide, by decide, rfl⟩, by decide, by decide,
    by decide⟩

end Grammers
