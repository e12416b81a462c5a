import Grammers.BoxReach

namespace Grammers

open StableSort Reassembly LabelledPath

/-- Every position, date or sequence that a call changes is set to zero or more. -/
structure SetsNonneg (s s' : MessageBoxes) : Prop where
  positions : ∀ k e', s'.entry k = some e' →
    (∃ e, s.entry k = some e ∧ e'.pts = e.pts) ∨ 0 ≤ e'.pts.toInt
  date : s'.date = s.date ∨ 0 ≤ s'.date.toInt
  seq : s'.seq = s.seq ∨ 0 ≤ s'.seq.toInt

namespace SetsNonneg

variable {s s' s'' : MessageBoxes} {e : LiveEntry} {k : Key}

theorem refl (s : MessageBoxes) : SetsNonneg s s :=
  ⟨fun _ e' he => Or.inl ⟨e', he, rfl⟩, Or.inl rfl, Or.inl rfl⟩

theorem trans (h : SetsNonneg s s') (h' : SetsNonneg s' s'') : SetsNonneg s s'' := by
  refine ⟨?_, ?_, ?_⟩
  · intro k e'' he
    rcases h'.positions k e'' he with ⟨e', he', hp'⟩ | hp
    · rw [hp']
      exact h.positions k e' he'
    · exact Or.inr hp
  · rcases h'.date with hd | hd
    · rw [hd]
      exact h.date
    · exact Or.inr hd
  · rcases h'.seq with hq | hq
    · rw [hq]
      exact h.seq
    · exact Or.inr hq

theorem congr (h : SetsNonneg s s') (he : s''.entries = s'.entries) (hd : s''.date = s'.date)
    (hq : s''.seq = s'.seq) : SetsNonneg s s'' := by
  refine ⟨?_, by rw [hd]; exact h.date, by rw [hq]; exact h.seq⟩
  rw [show s''.entry = s'.entry by funext k; rw [MessageBoxes.entry, MessageBoxes.entry, he]]
  exact h.positions

theorem setEntry (hs : s.Sorted)
    (h : (∃ e0, s.entry e.key = some e0 ∧ e.pts = e0.pts) ∨ 0 ≤ e.pts.toInt) :
    SetsNonneg s (s.setEntry e) := by
  refine ⟨?_, Or.inl rfl, Or.inl rfl⟩
  intro k e' he
  rw [MessageBoxes.entry_setEntry hs] at he
  split at he
  next hk =>
    obtain rfl := Option.some.inj he
    exact hk ▸ h
  next => exact Or.inl ⟨e', he, rfl⟩

/-- An entry that keeps its key and its position. -/
theorem setEntry_known (hs : s.Sorted) (he : s.entry k = some e) (e' : LiveEntry)
    (hk : e'.key = e.key) (hp : e'.pts = e.pts) : SetsNonneg s (s.setEntry e') := by
  refine setEntry hs (Or.inl ⟨e, ?_, hp⟩)
  rw [hk, MessageBoxes.entry_key hs he]
  exact he

theorem setPts (hs : s.Sorted) {pts : Int32} (hp : 0 ≤ pts.toInt) (k : Key) (now : Instant) :
    SetsNonneg s (s.setPts k pts now) := by
  rw [MessageBoxes.setPts_eq hs]
  refine setEntry hs (Or.inr ?_)
  cases s.entry k with
  | none => exact hp
  | some e => exact hp

theorem tryBeginGetDiff (h : s.Inv) (k : Key) (now : Instant) :
    SetsNonneg s (s.tryBeginGetDiff k now) := by
  cases he : s.entry k with
  | none =>
    rw [MessageBoxes.tryBeginGetDiff_of_none he]
    exact refl s
  | some e =>
    cases hp : e.recoveryPending with
    | true =>
      rw [MessageBoxes.tryBeginGetDiff_of_pending (by rw [MessageBoxes.isGettingDiff_of_entry he, hp])]
      exact refl s
    | false =>
      obtain ⟨o, ho⟩ := MessageBoxes.tryBeginGetDiff_eq h he hp now
      rw [ho]
      exact (setEntry_known h.sorted he (e.begun now) rfl rfl).congr rfl rfl rfl

theorem resetDeadline (hs : s.Sorted) (k : Key) (d : Instant) :
    SetsNonneg s (s.resetDeadline k d) := by
  cases he : s.entry k with
  | none =>
    obtain ⟨_, hr, _⟩ := MessageBoxes.resetDeadline_of_none hs he d
    rw [hr]
    exact (refl s).congr rfl rfl rfl
  | some e =>
    obtain ⟨_, hr, _⟩ := MessageBoxes.resetDeadline_eq hs he d
    rw [hr]
    exact (setEntry_known hs he { e with deadline := d } rfl rfl).congr rfl rfl rfl

theorem tryEndGetDiff (h : s.Inv) {k : Key} {now : Instant} (hr : s.tryEndGetDiff k now = .ok s') :
    SetsNonneg s s' := by
  cases hp : s.isGettingDiff k with
  | false =>
    rw [MessageBoxes.tryEndGetDiff_of_not_pending hp] at hr
    exact Except.ok.inj hr ▸ refl s
  | true =>
    obtain ⟨e, he, hpe⟩ := MessageBoxes.entry_of_isGettingDiff hp
    obtain ⟨s1, hr1, _, ⟨_, _, _, hs1⟩, _⟩ := MessageBoxes.tryEndGetDiff_eq h he hpe now
    obtain rfl := Except.ok.inj (hr.symm.trans hr1)
    rw [hs1]
    exact (setEntry_known h.sorted he (e.ended now) rfl rfl).congr rfl rfl rfl

theorem retryChannelAt (hs : s.Sorted) (he : s.entry k = some e) (failures : Nat)
    (beyond : List Update) (retryAt : Instant) :
    SetsNonneg s (s.retryChannelAt k failures beyond retryAt) := by
  rw [MessageBoxes.retryChannelAt_eq hs he]
  exact (setEntry_known hs he (e.backedOff failures beyond retryAt) rfl rfl).congr rfl rfl rfl

theorem admitTooLong (hs : s.Sorted) (k : Key) (pts : Option Int32) (d : Instant) :
    SetsNonneg s (s.admitTooLong k pts d) := by
  rcases MessageBoxes.admitTooLong_cases s k pts d with he | ⟨_, p, _, hpos, he⟩
  · rw [he]
    exact refl s
  · rw [he]
    refine setEntry hs (Or.inr ?_)
    have := Int32.lt_iff_toInt_lt.mp hpos
    have hz : noPts.toInt = 0 := rfl
    show 0 ≤ p.toInt
    omega

end SetsNonneg

variable {b : Batch} {p p' : Processing} {u : Update} {us : List Update} {s s' : MessageBoxes}
  {result : List (Update × State)} {now : Instant}

/-- An arrival leaves the position of an entry where it was, or at the end of an update. -/
theorem accept_position {k : Key} {e : LiveEntry} (hu : Storable k u)
    (hs : ∀ v ∈ e.buffer.kept, Storable k v) :
    (e.accept u).1.position = e.pts.toInt ∨ 0 ≤ (e.accept u).1.position := by
  rcases chain_end (accept_chain e u) with heq | ⟨v, hv, heq⟩
  · exact Or.inl heq
  · have := (accept_delivered_storable hu hs v hv).range
    omega

/-- A new entry starts at zero or more. -/
theorem target_position {info : PtsInfo} (hu : Storable info.key u)
    (hf : PtsInfo.fromUpdate u = some info) (b : Batch) :
    (∃ e, p.boxes.entry info.key = some e ∧ (p.target b info).pts = e.pts) ∨
      0 ≤ (p.target b info).pts.toInt := by
  unfold Processing.target
  cases p.boxes.entry info.key with
  | none =>
    obtain ⟨h1, h2⟩ := PtsInfo.validUpdate_range hu.valid hf
    have := toInt_sub_of_range h1 h2
    right
    show 0 ≤ (info.pts - info.count).toInt
    omega
  | some e => exact Or.inl ⟨e, rfl, rfl⟩

theorem Processed.setsNonneg (hp : Processed b p u p') (h : p.boxes.Inv) :
    SetsNonneg p.boxes p'.boxes := by
  cases hp with
  | tooLongPending => exact .refl _
  | @tooLong c pts =>
    have h1 := h.admitTooLong (.channel c) pts (nextUpdatesDeadline b.now)
    exact (SetsNonneg.admitTooLong h.sorted _ _ _).trans (.tryBeginGetDiff h1 _ _)
  | unordered => exact .refl _
  | forced => exact .resetDeadline h.sorted _ _
  | @postponed u info =>
    obtain ⟨_, _, he⟩ := MessageBoxes.postpone_eq h info.key u
    simp only [he]
    exact (SetsNonneg.refl _).congr rfl rfl rfl
  | preLogin => exact .refl _
  | @applied u info pts hu hf _ _ _ hpts =>
    obtain ⟨hok, hkey⟩ := target_ok h b info
    refine (SetsNonneg.setEntry (e := (p.target b info).after b u pts) h.sorted ?_).congr rfl rfl rfl
    show (∃ e0, p.boxes.entry (p.target b info).key = some e0 ∧ pts = e0.pts) ∨ 0 ≤ pts.toInt
    rcases accept_position (hkey ▸ hu) hok.storable with heq | hnonneg
    · have hsame : pts = (p.target b info).pts := Int32.toInt_inj.mp (hpts.trans heq)
      rw [hkey, hsame]
      exact target_position hu hf b
    · exact Or.inr (hpts ▸ hnonneg)

theorem Batched.setsNonneg (hb : Batched b s us s' result) (h : s.Inv) (ha : s.Account)
    (hd : b.newDate = s.date ∨ 0 ≤ b.newDate.toInt) (hq : b.newSeq = s.seq ∨ 0 ≤ b.newSeq.toInt) :
    SetsNonneg s s' := by
  obtain ⟨p, hp, _, hs⟩ := hb
  have hrun : SetsNonneg s p.boxes := by
    refine (hp.invariant (I := fun q => SetsNonneg s q.boxes ∧ q.boxes.Inv ∧ q.boxes.Account)
      ?_ ⟨.refl s, h, ha⟩).1
    rintro q u q' ⟨hn, hi, hacc⟩ hstep
    exact ⟨hn.trans (hstep.setsNonneg hi), hstep.inv hi hacc⟩
  rcases hs with rfl | rfl
  · exact hrun
  · exact ⟨hrun.positions, hd, hq⟩

/-! What a difference hands over. -/

/-- A well-formed update that is not about another sequence than those of a difference. -/
structure Owed (force : List Key) (u : Update) : Prop where
  ordinary : ∀ c pts, u ≠ .channelTooLong c pts
  valid : PtsInfo.validUpdate u = true
  forced : ∀ info, PtsInfo.rawFromUpdate u = some info → info.key ∈ force

def isDeliveryOf (u : Update) (delivered : Update × State) : Bool :=
  decide (delivered.1 = u) &&
    decide (delivered.2.messageBox = (PtsInfo.fromUpdate u).map PtsInfo.toMessageBox)

theorem isDeliveryOf_deliver (b : Batch) (u : Update) : isDeliveryOf u (b.deliver u) = true := by
  simp [isDeliveryOf, Batch.deliver, Batch.mkState]

theorem Processed.result_append (hp : Processed b p u p') :
    ∃ more, p'.result = p.result ++ more ∧ (Owed b.force u → more = [b.deliver u]) := by
  have hforced : ∀ {u : Update} {info : PtsInfo}, PtsInfo.fromUpdate u = some info →
      info.key ∉ b.force → ¬Owed b.force u := fun hf hk ho =>
    hk (ho.forced _ (PtsInfo.fromUpdate_eq_some.mp hf).1)
  cases hp with
  | tooLongPending => exact ⟨[], by simp, fun ho => absurd rfl (ho.ordinary _ _)⟩
  | tooLong => exact ⟨[], by simp, fun ho => absurd rfl (ho.ordinary _ _)⟩
  | unordered hu hf => exact ⟨_, rfl, fun _ => by simp [Batch.deliver, hf]⟩
  | forced => exact ⟨_, rfl, fun _ => rfl⟩
  | postponed hu hf hk => exact ⟨[], by simp, fun ho => absurd ho (hforced hf hk)⟩
  | preLogin hf hk => exact ⟨_, rfl, fun ho => absurd ho (hforced hf hk)⟩
  | applied hu hf hk => exact ⟨_, rfl, fun ho => absurd ho (hforced hf hk)⟩

theorem Processed.path_owed (hp : Path (Processed b) p us p') (ho : Owed b.force u) :
    p.result.countP (isDeliveryOf u) + us.count u ≤ p'.result.countP (isDeliveryOf u) := by
  induction hp with
  | nil => simp
  | @cons p p1 p2 v us hstep _ ih =>
    obtain ⟨more, hmore, howed⟩ := hstep.result_append
    rw [hmore, List.countP_append] at ih
    by_cases hv : v = u
    · subst hv
      have : [b.deliver v].countP (isDeliveryOf v) = 1 := by simp [isDeliveryOf_deliver]
      rw [howed ho] at ih
      rw [List.count_cons_self]
      omega
    · rw [List.count_cons_of_ne hv]
      omega

theorem Batched.owed (hb : Batched b s us s' result) (ho : Owed b.force u) :
    us.count u ≤ result.countP (isDeliveryOf u) := by
  obtain ⟨p, hp, rfl, _⟩ := hb
  have hperm : (sortUpdatesByKey updateSortKey us).Perm us := by
    rw [sortUpdatesByKey_eq]
    exact sortByKey_perm updateSortKey us
  have := Processed.path_owed hp ho
  rwa [List.countP_nil, Nat.zero_add, hperm.count_eq] at this

def Difference.otherUpdates : Difference → List Update
  | .difference parts => parts.otherUpdates
  | .slice parts => parts.otherUpdates
  | _ => []

def ChannelDifference.otherUpdates : ChannelDifference → List Update
  | .difference parts => parts.otherUpdates
  | _ => []

namespace MessageBoxes

theorem count_differenceUpdates (ho : Owed [.common, .secondary] u) (s : MessageBoxes)
    (others : List Update) : (s.differenceUpdates others).count u = others.count u := by
  unfold differenceUpdates retainValidUpdates
  rw [List.count_filter, List.count_filter ho.valid]
  split
  next info hf =>
    have := ho.forced info (PtsInfo.fromUpdate_eq_some.mp hf).1
    rcases List.mem_cons.mp this with hk | hk
    · simp [hk, Key.isChannel]
    · simp [List.mem_singleton.mp hk, Key.isChannel]
  next => rfl

theorem beginDifference_setsNonneg (h : s.Good) {state : ServerState} (hv : state.isValid = true)
    (now : Instant) : SetsNonneg s (s.beginDifference state now) := by
  simp only [ServerState.isValid, Bool.and_eq_true, decide_eq_true_eq, Int32.le_iff_toInt_le] at hv
  obtain ⟨⟨⟨hpts, hqts⟩, hdate⟩, hseq⟩ := hv
  have h0 : Good { s with date := state.date, seq := state.seq } := h.congr rfl rfl rfl rfl
  have h1 := h0.setPts (k := .common) (by simp) (by simp [Key.isChannel]) state.pts now
  have hn : SetsNonneg s { s with date := state.date, seq := state.seq } :=
    ⟨(SetsNonneg.refl s).positions, Or.inr hdate, Or.inr hseq⟩
  exact (hn.trans (.setPts h0.sorted hpts .common now)).trans (.setPts h1.sorted hqts .secondary now)

/-- The updates of a checked account difference. -/
theorem applyDifferenceType_total (h : s.Good) {diff : DifferenceParts}
    (hv : diff.state.isValid = true) (now : Instant) :
    ∃ s' result, s.applyDifferenceType diff now = .ok (s', result) ∧ s'.Good ∧ SetsNonneg s s' ∧
      ∀ u, Owed [.common, .secondary] u →
        diff.otherUpdates.count u ≤ result.updates.countP (isDeliveryOf u) := by
  have h1 := h.beginDifference diff.state now
  obtain ⟨b, s', result, _, hforce, hdate, hseq, hb, hrun⟩ := applyDifferenceType_eq h diff now
  obtain ⟨hi, ha⟩ := hb.inv h1.toInv h1.account
  have hvalid := hv
  simp only [ServerState.isValid, Bool.and_eq_true, decide_eq_true_eq, Int32.le_iff_toInt_le] at hvalid
  refine ⟨s', _, hrun, ⟨hi, ha⟩, ?_, ?_⟩
  · refine (beginDifference_setsNonneg h hv now).trans (hb.setsNonneg h1.toInv h1.account ?_ ?_)
    · exact Or.inr (hdate ▸ hvalid.1.2)
    · exact Or.inr (hseq ▸ hvalid.2)
  · intro u ho
    have := hb.owed (hforce ▸ ho)
    rw [count_differenceUpdates ho] at this
    rw [List.countP_append]
    omega

theorem endAccount_total (h : s.Good) (now : Instant) :
    ∃ s', s.endAccount now = .ok s' ∧ SetsNonneg s s' := by
  obtain ⟨s1, hrun1, h1, _⟩ := h.tryEndGetDiff .common now
  obtain ⟨s2, hrun2, h2, _⟩ := h1.tryEndGetDiff .secondary now
  refine ⟨s2, by simp [MessageBoxes.endAccount, hrun1, hrun2, bind, Except.bind], ?_⟩
  exact (SetsNonneg.tryEndGetDiff h.toInv hrun1).trans (.tryEndGetDiff h1.toInv hrun2)

theorem applyDifference_total (h : s.Good) {difference : Difference}
    (hv : difference.isValid = true) (now : Instant) :
    ∃ s' result, s.applyDifference difference now = .ok (s', result) ∧ SetsNonneg s s' ∧
      ∀ u, Owed [.common, .secondary] u →
        difference.otherUpdates.count u ≤ result.updates.countP (isDeliveryOf u) := by
  cases difference with
  | empty date seq =>
    simp only [Difference.isValid, Bool.and_eq_true, decide_eq_true_eq, Int32.le_iff_toInt_le] at hv
    have h0 : Good { s with date := date, seq := seq } := h.congr rfl rfl rfl rfl
    have hn : SetsNonneg s { s with date := date, seq := seq } :=
      ⟨(SetsNonneg.refl s).positions, Or.inr hv.1, Or.inr hv.2⟩
    obtain ⟨s', hrun, hend⟩ := endAccount_total h0 now
    refine ⟨s', _, by simp only [MessageBoxes.applyDifference, hrun, bind, Except.bind]; rfl,
      hn.trans hend, ?_⟩
    simp [Difference.otherUpdates]
  | difference parts =>
    obtain ⟨s1, result, hrun1, h1, hn, howed⟩ := applyDifferenceType_total h hv now
    obtain ⟨s', hrun, hend⟩ := endAccount_total h1 now
    exact ⟨s', result, by simp only [MessageBoxes.applyDifference, hrun1, hrun, bind, Except.bind]; rfl,
      hn.trans hend, howed⟩
  | slice parts =>
    obtain ⟨s', result, hrun, _, hn, howed⟩ := applyDifferenceType_total h hv now
    exact ⟨s', result, hrun, hn, howed⟩
  | tooLong pts =>
    have hpts : 0 ≤ pts.toInt := Int32.le_iff_toInt_le.mp (of_decide_eq_true hv)
    have h0 := h.setPts (k := .common) (by simp) (by simp [Key.isChannel]) pts now
    obtain ⟨s', hrun, hend⟩ := endAccount_total h0 now
    refine ⟨s', _, by simp only [MessageBoxes.applyDifference, hrun, bind, Except.bind]; rfl,
      (SetsNonneg.setPts h.sorted hpts .common now).trans hend, ?_⟩
    simp [Difference.otherUpdates]

/-- Spacing out and yielding move no position. -/
theorem finishChannelDifference_setsNonneg (h : s.Good) {c : Int} {e : LiveEntry}
    (he : s.entry (.channel c) = some e) (diff : ChannelDifferenceParts) (failures : Nat)
    (now : Instant) : SetsNonneg s (s.finishChannelDifference c diff failures now) := by
  obtain ⟨d, hd⟩ : ∃ d, d = timeoutDeadline diff.timeout now := ⟨_, rfl⟩
  have h1 := h.resetDeadline (.channel c) d
  have hn := SetsNonneg.resetDeadline h.sorted (.channel c) d
  have he1 : (s.resetDeadline (.channel c) d).entry (.channel c) =
      some { e with deadline := d } := by
    rw [entry_resetDeadline h.sorted, if_pos rfl, he]
    rfl
  unfold MessageBoxes.finishChannelDifference
  simp only [resetTimeout, ← hd, retainContiguousHeldUpdates_eq h1.toInv]
  split
  next =>
    split
    next => exact hn.congr rfl rfl rfl
    next =>
      have hheld : ∀ held, SetsNonneg s
          { s.resetDeadline (.channel c) d with heldUpdates := held } := fun _ => hn.congr rfl rfl rfl
      refine (hheld _).trans (SetsNonneg.retryChannelAt (e := { e with deadline := d }) ?_ ?_ _ _ _)
      · exact h1.sorted
      · exact he1
  next =>
    unfold rotate
    split
    next => exact hn.congr rfl rfl rfl
    next => exact hn

theorem applyChannelDifference_total (h : s.Good) {c : Int} (hc : s.channelInDiff = some c)
    {difference : ChannelDifference} (hv : difference.isValid c = true) (now : Instant) :
    ∃ s' result, s.applyChannelDifference difference now = .ok (s', result) ∧ SetsNonneg s s' ∧
      ∀ u, Owed [.channel c] u →
        difference.otherUpdates.count u ≤ result.updates.countP (isDeliveryOf u) := by
  obtain ⟨e, he, hp, hd⟩ := h.toInv.channelInDiff hc
  obtain ⟨diff, hadapt, hpts⟩ := adaptChannelDifference_of_valid hv
  obtain ⟨b, s1, s2, result, hrun1, _, hforce, hdate, hseq, _, hb, hrun⟩ :=
    applyChannelDifference_eq h hc he hadapt now
  obtain ⟨s1', hrun1', h1, _, hdate1, hseq1, hentry, _⟩ :=
    beginChannelDifference_eq h he hp hd diff now
  obtain rfl := Except.ok.inj (hrun1.symm.trans hrun1')
  have hbegin : SetsNonneg s s1 := by
    refine ⟨?_, Or.inl hdate1, Or.inl hseq1⟩
    intro k e' he'
    rw [hentry] at he'
    split at he'
    next =>
      obtain rfl := Option.some.inj he'
      exact Or.inr (Int32.le_iff_toInt_le.mp hpts)
    next => exact Or.inl ⟨e', he', rfl⟩
  have he1 : s1.entry (.channel c) = some (e.answered diff now) := by rw [hentry, if_pos rfl]
  obtain ⟨e2, he2, _⟩ := entry_after_difference h1 he1 hb hforce
  obtain ⟨hi2, ha2⟩ := hb.inv h1.toInv h1.account
  have hupdates := hb.setsNonneg h1.toInv h1.account (Or.inl hdate) (Or.inl hseq)
  refine ⟨_, _, hrun, (hbegin.trans hupdates).trans
    (finishChannelDifference_setsNonneg ⟨hi2, ha2⟩ he2 diff _ now), ?_⟩
  intro u ho
  have hcount : difference.otherUpdates.count u ≤ diff.otherUpdates.count u := by
    cases difference with
    | difference parts =>
      obtain rfl := Except.ok.inj hadapt
      exact le_rfl
    | empty isFinal pts timeout => simp [ChannelDifference.otherUpdates]
    | tooLong isFinal timeout dialog chats users => simp [ChannelDifference.otherUpdates]
  have := hb.owed (hforce ▸ ho)
  rw [retainValidUpdates, List.count_filter ho.valid] at this
  rw [List.countP_append]
  omega

end MessageBoxes

open MessageBoxes in
/-- A checked difference is refused and leaves everything as it was, or it is applied
without a panic: what it sets is zero or more, and the well-formed updates of its
sequences, other than a channel being too far behind, are handed over. -/
theorem checked_differences_total {s : MessageBoxes} (h : Reachable s) (now : Instant) :
    (∀ difference : Difference, s.tryApplyDifference difference now = .error (.gap s) ∨
      ∃ s' result, s.tryApplyDifference difference now = .ok (s', result) ∧ SetsNonneg s s' ∧
        ∀ u, Owed [.common, .secondary] u →
          difference.otherUpdates.count u ≤ result.updates.countP (isDeliveryOf u)) ∧
      ∀ difference : ChannelDifference,
        s.tryApplyChannelDifference difference now = .error (.gap s) ∨
        ∃ c s' result, s.channelInDiff = some c ∧
          s.tryApplyChannelDifference difference now = .ok (s', result) ∧ SetsNonneg s s' ∧
          ∀ u, Owed [.channel c] u →
            difference.otherUpdates.count u ≤ result.updates.countP (isDeliveryOf u) := by
  constructor
  · intro difference
    rcases tryApplyDifference_cases s difference now with hr | ⟨hv, _, hr⟩
    · exact Or.inl hr
    · rw [hr]
      exact Or.inr (applyDifference_total h.good hv now)
  · intro difference
    rcases tryApplyChannelDifference_cases s difference now with hr | ⟨c, hc, hv, hr⟩
    · exact Or.inl hr
    · obtain ⟨s', result, hrun, hn, howed⟩ := applyChannelDifference_total h.good hc hv now
      exact Or.inr ⟨c, s', result, hc, hr.trans hrun, hn, howed⟩

/-- A channel under recovery whose difference holds a malformed update and a valid one. -/
theorem checked_differences_total_sibling :
    let s := MessageBoxes.load ⟨5, 0, 1, 1, [⟨7, 3⟩]⟩ 0
    ∃ s' result, s.tryApplyChannelDifference (.difference ⟨true, 10, none, [],
        [.deleteChannelMessages 7 [] 1 5, .deleteChannelMessages 7 [] 9 1], [], []⟩) 0 =
          .ok (s', result) ∧ SetsNonneg s s' ∧
        1 ≤ result.updates.countP (isDeliveryOf (.deleteChannelMessages 7 [] 9 1)) := by
  intro s
  have hreach : Reachable s := ⟨0, _, [], .load ⟨5, 0, 1, 1, [⟨7, 3⟩]⟩ 0, Path.nil⟩
  rcases (checked_differences_total hreach 0).2 (.difference ⟨true, 10, none, [],
    [.deleteChannelMessages 7 [] 1 5, .deleteChannelMessages 7 [] 9 1], [], []⟩) with
    hr | ⟨c, s', result, hc, hr, hn, howed⟩
  · exact absurd hr (by decide)
  · obtain rfl : (7 : Int) = c := Option.some.inj ((show s.channelInDiff = some 7 by decide).symm.trans hc)
    exact ⟨s', result, hr, hn, howed (.deleteChannelMessages 7 [] 9 1) ⟨by simp, by decide, by
      simp [PtsInfo.rawFromUpdate]⟩⟩

/-- That a channel is too far behind is never handed over, not even next to a
malformed update in the channel's own difference. -/
theorem checked_difference_consumes_tooLong :
    let s := MessageBoxes.load ⟨5, 0, 1, 1, [⟨7, 3⟩]⟩ 0
    let u := Update.channelTooLong 7 (some 12)
    Reachable s ∧ s.channelInDiff = some 7 ∧ PtsInfo.validUpdate u = true ∧
      PtsInfo.fromUpdate u = some ⟨.channel 7, 12, 0⟩ ∧
      PtsInfo.validUpdate (.deleteChannelMessages 7 [] 1 5) = false ∧
      ∃ s' result, s.tryApplyChannelDifference
          (.difference ⟨true, 10, none, [], [.deleteChannelMessages 7 [] 1 5, u], [], []⟩) 0 =
            .ok (s', result) ∧ result.updates = [] := by
  refine ⟨⟨0, _, [], .load ⟨5, 0, 1, 1, [⟨7, 3⟩]⟩ 0, Path.nil⟩, by decide, by decide, by decide,
    by decide, ?_⟩
  exact ⟨_, _, rfl, by decide⟩

end Grammers
