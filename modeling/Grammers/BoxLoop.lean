import Grammers.BoxPrimitives

namespace Grammers

open StableSort Reassembly WorkQueue LabelledPath

variable {b : Batch} {p p' : Processing} {u : Update} {us : List Update} {info : PtsInfo}

/-- The entry an ordered update is applied to: the known one, or a new one it follows. -/
def Processing.target (p : Processing) (b : Batch) (info : PtsInfo) : LiveEntry :=
  (p.boxes.entry info.key).getD
    (.fresh info.key (info.pts - info.count) (nextUpdatesDeadline b.now))

/-- The entry an arrival leaves. -/
def LiveEntry.after (e : LiveEntry) (b : Batch) (u : Update) (pts : Int32) : LiveEntry :=
  { e with
    pts := pts
    deadline := if updateSortKey u = e.pts.toInt then nextUpdatesDeadline b.now else e.deadline
    possibleGap := e.gapAfter u b.now }

/-- What one update of a batch can do. -/
inductive Processed (b : Batch) (p : Processing) : Update → Processing → Prop
  | tooLongPending {c : Int} {pts : Option Int32} (hp : p.boxes.isGettingDiff (.channel c) = true) :
      Processed b p (.channelTooLong c pts) p
  | tooLong {c : Int} {pts : Option Int32} (hp : p.boxes.isGettingDiff (.channel c) = false) :
      Processed b p (.channelTooLong c pts) { p with
        boxes := (p.boxes.admitTooLong (.channel c) pts (nextUpdatesDeadline b.now)).tryBeginGetDiff
          (.channel c) b.now }
  | unordered {u : Update} (hu : ∀ c pts, u ≠ .channelTooLong c pts) (hf : PtsInfo.fromUpdate u = none) :
      Processed b p u { p with result := p.result ++ [(u, b.mkState none)] }
  | forced {u : Update} {info : PtsInfo} (hu : Storable info.key u) (hf : PtsInfo.fromUpdate u = some info)
      (hk : info.key ∈ b.force) :
      Processed b p u { p with
        boxes := p.boxes.resetDeadline info.key (nextUpdatesDeadline b.now)
        result := p.result ++ [b.deliver u] }
  | postponed {u : Update} {info : PtsInfo} (hu : Storable info.key u) (hf : PtsInfo.fromUpdate u = some info)
      (hk : info.key ∉ b.force) (hp : p.boxes.isGettingDiff info.key = true) :
      Processed b p u { p with
        boxes := p.boxes.postpone info.key u
        haveUnresolvedGaps := true }
  | preLogin {u : Update} {info : PtsInfo} (hf : PtsInfo.fromUpdate u = some info) (hk : info.key ∉ b.force)
      (hkey : info.key = .secondary) (hc : p.boxes.entry .common = none) :
      Processed b p u { p with result := p.result ++ [(u, b.mkState none)] }
  | applied {u : Update} {info : PtsInfo} {pts : Int32} (hu : Storable info.key u) (hf : PtsInfo.fromUpdate u = some info)
      (hk : info.key ∉ b.force) (hp : p.boxes.isGettingDiff info.key = false)
      (hc : info.key = .secondary → (p.boxes.entry .common).isSome = true)
      (hpts : pts.toInt = ((p.target b info).accept u).1.position) :
      Processed b p u {
        boxes := { p.boxes.setEntry ((p.target b info).after b u pts) with
          nextDeadline := min p.boxes.nextDeadline
            ((((p.target b info).gapAfter u b.now).map PossibleGap.deadline).getD
              (nextUpdatesDeadline b.now)) }
        result := p.result ++ ((p.target b info).accept u).2.map b.deliver
        haveUnresolvedGaps := p.haveUnresolvedGaps ||
          (((p.target b info).gapAfter u b.now).map PossibleGap.deadline).isSome }

theorem target_ok (h : p.boxes.Inv) (b : Batch) (info : PtsInfo) :
    (p.target b info).Ok ∧ (p.target b info).key = info.key := by
  unfold Processing.target
  cases he : p.boxes.entry info.key with
  | none => exact ⟨LiveEntry.fresh_ok _ _ _, rfl⟩
  | some e => exact ⟨h.entryOk _ e he, h.entry_key he⟩

theorem processUpdate_of_ordinary (hu : ∀ c pts, u ≠ .channelTooLong c pts) (b : Batch)
    (p : Processing) : processUpdate b p u =
      match PtsInfo.fromUpdate u with
      | none => .ok { p with result := p.result ++ [(u, b.mkState none)] }
      | some info =>
        if info.count < 0 ∨ info.pts < info.count then
          .error (.gap (p.boxes.tryBeginGetDiff info.key b.now))
        else if info.key ∈ b.force then
          .ok { p with
            boxes := p.boxes.resetDeadline info.key (nextUpdatesDeadline b.now)
            result := p.result ++ [(u, b.mkState (some info.toMessageBox))] }
        else if p.boxes.isGettingDiff info.key then
          .ok { p with boxes := p.boxes.postpone info.key u, haveUnresolvedGaps := true }
        else if info.key = .secondary ∧ (p.boxes.entry .common).isNone then
          .ok { p with result := p.result ++ [(u, b.mkState none)] }
        else do
          let (s, delivery) ← p.boxes.forceUpdateEntry
            (.fresh info.key (info.pts - info.count) (nextUpdatesDeadline b.now))
            (applyToEntry b info u)
          return {
            boxes := { s with
              nextDeadline := min s.nextDeadline
                (delivery.gapDeadline.getD (nextUpdatesDeadline b.now)) }
            result := p.result ++ delivery.result
            haveUnresolvedGaps := p.haveUnresolvedGaps || delivery.gapDeadline.isSome } := by
  cases u with
  | channelTooLong c pts => exact absurd rfl (hu c pts)
  | _ => rfl

/-- The range check repeated inside the loop never fails a valid update. -/
theorem range_check_fails (hv : PtsInfo.validUpdate u = true) (hf : PtsInfo.fromUpdate u = some info) :
    ¬(info.count < 0 ∨ info.pts < info.count) := by
  obtain ⟨h1, h2⟩ := PtsInfo.validUpdate_range hv hf
  rintro (h | h)
  · have := Int32.lt_iff_toInt_lt.mp h
    have : (0 : Int32).toInt = 0 := rfl
    omega
  · have := Int32.lt_iff_toInt_lt.mp h
    omega

/-- A valid update is always processed, in one of the ways above. -/
theorem processUpdate_spec (h : p.boxes.Inv) (hv : PtsInfo.validUpdate u = true) :
    ∃ p', processUpdate b p u = .ok p' ∧ Processed b p u p' := by
  by_cases hu : ∃ c pts, u = .channelTooLong c pts
  · obtain ⟨c, pts, rfl⟩ := hu
    cases hp : p.boxes.isGettingDiff (.channel c) with
    | true => exact ⟨p, by simp [processUpdate, hp], .tooLongPending hp⟩
    | false =>
      refine ⟨_, ?_, .tooLong hp⟩
      simp [processUpdate, hp]
  have hu : ∀ c pts, u ≠ .channelTooLong c pts := fun c pts he => hu ⟨c, pts, he⟩
  rw [processUpdate_of_ordinary hu]
  cases hf : PtsInfo.fromUpdate u with
  | none => exact ⟨_, rfl, .unordered hu hf⟩
  | some info =>
    have hst : Storable info.key u := ⟨hu, hv, info, hf, rfl⟩
    simp only
    rw [if_neg (range_check_fails hv hf)]
    by_cases hk : info.key ∈ b.force
    · rw [if_pos hk]
      refine ⟨_, rfl, ?_⟩
      have := Processed.forced (p := p) hst hf hk
      simpa [Batch.deliver, hf] using this
    rw [if_neg hk]
    cases hp : p.boxes.isGettingDiff info.key with
    | true => exact ⟨_, if_pos rfl, .postponed hst hf hk hp⟩
    | false =>
      rw [if_neg (by simp)]
      by_cases hc : info.key = .secondary ∧ (p.boxes.entry .common).isNone
      · rw [if_pos hc]
        exact ⟨_, rfl, .preLogin hf hk hc.1 (Option.isNone_iff_eq_none.mp hc.2)⟩
      rw [if_neg hc]
      obtain ⟨hok, hkey⟩ := target_ok h b info
      obtain ⟨pts, hpts, happly⟩ := applyToEntry_eq (hkey ▸ hst) hf hok.storable b
      have hc' : info.key = .secondary → (p.boxes.entry .common).isSome = true := by
        intro hk
        simpa [hk, Option.isNone_iff_eq_none, Option.isSome_iff_ne_none] using hc
      refine ⟨_, ?_, .applied hst hf hk hp hc' hpts⟩
      simp only [MessageBoxes.forceUpdateEntry]
      rw [show ((p.boxes.entry (LiveEntry.fresh info.key (info.pts - info.count)
        (nextUpdatesDeadline b.now)).key).getD (LiveEntry.fresh info.key (info.pts - info.count)
        (nextUpdatesDeadline b.now))) = p.target b info from rfl, happly]
      rfl

/-- The entry an arrival leaves shows the buffer after it. -/
theorem buffer_after {e : LiveEntry} {pts : Int32} (hpts : pts.toInt = (e.accept u).1.position)
    (b : Batch) : (e.after b u pts).buffer = (e.accept u).1 := by
  have hkept : (e.after b u pts).buffer.kept = (e.accept u).1.kept := by
    simp only [LiveEntry.buffer, LiveEntry.after, LiveEntry.gapAfter]
    split
    next hnil => simp [hnil]
    next => rfl
  exact congrArg₂ Buffer.mk hpts hkept

theorem LiveEntry.Ok.after {e : LiveEntry} (he : e.Ok) (hp : e.recoveryPending = false)
    (hu : Storable e.key u) {pts : Int32} (hpts : pts.toInt = (e.accept u).1.position) (b : Batch) :
    (e.after b u pts).Ok := by
  have hkept : (e.after b u pts).buffer.kept = (e.accept u).1.kept := by rw [buffer_after hpts]
  constructor
  · exact he.deferred
  · rw [hkept]
    exact accept_kept_storable hu he.storable
  · rw [hkept]
    exact arrive_kept_length popOrder_perm he.bound
  · intro gap hg
    simp only [LiveEntry.after, LiveEntry.gapAfter] at hg
    split at hg
    next => simp at hg
    next hne =>
      obtain rfl := Option.some.inj hg
      exact hne
  · intro hk
    rw [hkept, show (e.after b u pts).pts = pts from rfl, hpts]
    exact arrive_ahead popOrder_perm popOrder_ascending (he.ahead hk)
  · exact he.account
  · intro _ h
    rw [show (e.after b u pts).recoveryPending = e.recoveryPending from rfl, hp] at h
    simp at h

namespace MessageBoxes

variable {s : MessageBoxes} {k : Key} {now : Instant}

/-- A secondary entry is only known along with a common one. -/
def Account (s : MessageBoxes) : Prop :=
  (s.entry .secondary).isSome = true → (s.entry .common).isSome = true

theorem Account.congr {s' : MessageBoxes} (h : s.Account)
    (hk : ∀ k, (s'.entry k).isSome = (s.entry k).isSome) : s'.Account := by
  unfold Account
  rw [hk, hk]
  exact h

theorem Account.setEntry {e : LiveEntry} (h : s.Account) (hs : s.Sorted)
    (hk : e.key = .secondary → (s.entry .common).isSome = true) : (s.setEntry e).Account := by
  unfold Account
  rw [entry_setEntry hs, entry_setEntry hs]
  intro hsec
  split
  next => rfl
  next hcommon =>
    split at hsec
    next he => exact hk he.symm
    next => exact h hsec

theorem Account.tryBeginGetDiff (h : s.Account) (hi : s.Inv) (k : Key) (now : Instant) :
    (s.tryBeginGetDiff k now).Account := by
  refine h.congr fun k' => ?_
  rw [entry_tryBeginGetDiff hi]
  split
  next hk => rw [hk, Option.isSome_map]
  next => rfl

theorem admitTooLong_cases (s : MessageBoxes) (k : Key) (pts : Option Int32) (d : Instant) :
    s.admitTooLong k pts d = s ∨ s.entry k = none ∧
      ∃ p, pts = some p ∧ noPts < p ∧ s.admitTooLong k pts d = s.setEntry (.fresh k p d) := by
  unfold admitTooLong
  split
  next p hp =>
    obtain ⟨rfl, hpos⟩ := Option.filter_eq_some_iff.mp hp
    split
    next hn => exact Or.inr ⟨Option.isNone_iff_eq_none.mp hn, p, rfl, by simpa using hpos, rfl⟩
    next => exact Or.inl rfl
  next => exact Or.inl rfl

/-- Admitting a channel leaves every known entry alone. -/
theorem entry_admitTooLong {e : LiveEntry} (hs : s.Sorted) (he : s.entry k = some e) (k' : Key)
    (pts : Option Int32) (d : Instant) : (s.admitTooLong k' pts d).entry k = some e := by
  rcases admitTooLong_cases s k' pts d with heq | ⟨hn, p, _, _, heq⟩
  · rw [heq, he]
  · rw [heq, entry_setEntry hs]
    have hne : ¬k = (LiveEntry.fresh k' p d).key := by
      rintro rfl
      exact absurd (he.symm.trans hn) (by simp)
    rw [if_neg hne, he]

theorem Inv.setEntry_fresh (h : s.Inv) (hn : s.entry k = none) (pts : Int32) (d : Instant) :
    (s.setEntry (.fresh k pts d)).Inv := by
  refine h.setEntry (LiveEntry.fresh_ok k pts d) ?_
  show false = s.ready k
  simp [ready, hn]

theorem Inv.admitTooLong (h : s.Inv) (k : Key) (pts : Option Int32) (d : Instant) :
    (s.admitTooLong k pts d).Inv := by
  rcases admitTooLong_cases s k pts d with he | ⟨hn, p, _, _, he⟩
  · rw [he]
    exact h
  · rw [he]
    exact h.setEntry_fresh hn p d

theorem Account.admitTooLong (h : s.Account) (hi : s.Inv) (c : Int) (pts : Option Int32)
    (d : Instant) : (s.admitTooLong (.channel c) pts d).Account := by
  rcases admitTooLong_cases s (.channel c) pts d with he | ⟨_, p, _, _, he⟩
  · rw [he]
    exact h
  · rw [he]
    exact h.setEntry hi.sorted (by simp [LiveEntry.fresh])

theorem Inv.postpone (h : s.Inv) (hu : Storable k u) : (s.postpone k u).Inv := by
  unfold MessageBoxes.postpone
  split
  next => exact h.holdChannelUpdate hu
  next => exact h

theorem postpone_eq (h : s.Inv) (k : Key) (u : Update) : ∃ held overflowed,
    s.postpone k u = { s with heldUpdates := held, heldOverflowed := overflowed } := by
  unfold MessageBoxes.postpone
  split
  next c =>
    obtain ⟨o, ho⟩ := holdChannelUpdate_eq h.heldBound c u
    exact ⟨_, o, ho⟩
  next => exact ⟨s.heldUpdates, s.heldOverflowed, rfl⟩

end MessageBoxes

/-- Every update of a batch keeps the invariant. -/
theorem Processed.inv (hp : Processed b p u p') (h : p.boxes.Inv) (ha : p.boxes.Account) :
    p'.boxes.Inv ∧ p'.boxes.Account := by
  cases hp with
  | tooLongPending => exact ⟨h, ha⟩
  | @tooLong c pts =>
    have h1 := h.admitTooLong (.channel c) pts (nextUpdatesDeadline b.now)
    exact ⟨h1.tryBeginGetDiff _ _, (ha.admitTooLong h c pts _).tryBeginGetDiff h1 _ _⟩
  | unordered => exact ⟨h, ha⟩
  | forced =>
    refine ⟨h.resetDeadline _ _, ha.congr fun k' => ?_⟩
    rw [MessageBoxes.entry_resetDeadline h.sorted]
    split
    next hk => rw [hk, Option.isSome_map]
    next => rfl
  | @postponed u info hu =>
    refine ⟨h.postpone hu, ?_⟩
    obtain ⟨_, _, he⟩ := MessageBoxes.postpone_eq h info.key u
    rw [he]
    exact ha
  | preLogin => exact ⟨h, ha⟩
  | @applied u info pts hu _ _ hpend hc hpts =>
    obtain ⟨hok, hkey⟩ := target_ok h b info
    have hnot : (p.target b info).recoveryPending = false := by
      unfold Processing.target
      cases he : p.boxes.entry info.key with
      | none => rfl
      | some e => rwa [MessageBoxes.isGettingDiff_of_entry he] at hpend
    have hkey' : ((p.target b info).after b u pts).key = info.key := hkey
    have hready : ((p.target b info).after b u pts).isReady =
        p.boxes.ready ((p.target b info).after b u pts).key := by
      rw [hkey', LiveEntry.isReady,
        show ((p.target b info).after b u pts).recoveryPending = false from hnot, Bool.false_and]
      cases he : p.boxes.entry info.key with
      | none => simp [MessageBoxes.ready, he]
      | some e =>
        rw [MessageBoxes.isGettingDiff_of_entry he] at hpend
        simp [MessageBoxes.ready, he, LiveEntry.isReady, hpend]
    have h1 := h.setEntry (hok.after hnot (hkey ▸ hu) hpts b) hready
    have h2 := ha.setEntry (e := (p.target b info).after b u pts) h.sorted (hkey' ▸ hc)
    exact ⟨h1.congr rfl rfl rfl rfl, h2⟩

theorem Processed.path_inv (hp : Path (Processed b) p us p') (h : p.boxes.Inv)
    (ha : p.boxes.Account) : p'.boxes.Inv ∧ p'.boxes.Account :=
  hp.invariant (I := fun p => p.boxes.Inv ∧ p.boxes.Account) (fun _ _ _ h hp => hp.inv h.1 h.2) ⟨h, ha⟩

/-- The key an update is about, if any. -/
def Update.key : Update → Option Key
  | .channelTooLong channelId _ => some (.channel channelId)
  | update => (PtsInfo.fromUpdate update).map PtsInfo.key

theorem Storable.update_key {k : Key} (hu : Storable k u) : u.key = some k := by
  obtain ⟨info, hf, hk⟩ := hu.known
  cases u with
  | channelTooLong c pts => exact absurd rfl (hu.ordinary c pts)
  | _ => exact (congrArg (Option.map PtsInfo.key) hf).trans (by rw [Option.map_some, hk])

/-- An update leaves every entry alone that it is not about. -/
theorem Processed.entry_other {k : Key} (hp : Processed b p u p') (h : p.boxes.Inv)
    (hk : u.key ≠ some k) : p'.boxes.entry k = p.boxes.entry k := by
  cases hp with
  | tooLongPending => rfl
  | @tooLong c pts =>
    have hne : k ≠ .channel c := fun he => hk (by rw [he]; rfl)
    have h1 := h.admitTooLong (.channel c) pts (nextUpdatesDeadline b.now)
    simp only [MessageBoxes.entry_tryBeginGetDiff h1, if_neg hne]
    rcases MessageBoxes.admitTooLong_cases p.boxes (.channel c) pts (nextUpdatesDeadline b.now) with
      he | ⟨_, q, _, _, he⟩
    · rw [he]
    · rw [he, MessageBoxes.entry_setEntry h.sorted]
      exact if_neg hne
  | unordered => rfl
  | @forced u info hu hf =>
    have hne : k ≠ info.key := fun he => hk (by rw [he, hu.update_key])
    simp only [MessageBoxes.entry_resetDeadline h.sorted, if_neg hne]
  | @postponed u info hu =>
    obtain ⟨_, _, he⟩ := MessageBoxes.postpone_eq h info.key u
    simp only [he]
    rfl
  | preLogin => rfl
  | @applied u info pts hu =>
    obtain ⟨_, hkey⟩ := target_ok h b info
    have hkey' : ((p.target b info).after b u pts).key = info.key := hkey
    have hne : k ≠ info.key := fun he => hk (by rw [he, hu.update_key])
    have := MessageBoxes.entry_setEntry_of_key h.sorted ((p.target b info).after b u pts) hkey' k
    rw [if_neg hne] at this
    exact this

/-- What one update of a batch can make of the entry of a key. -/
inductive Stepped (b : Batch) (p : Processing) (k : Key) : LiveEntry → Prop
  | same {e : LiveEntry} (he : p.boxes.entry k = some e) : Stepped b p k e
  | begun {e : LiveEntry} (he : p.boxes.entry k = some e) (hp : e.recoveryPending = false) :
      Stepped b p k (e.begun b.now)
  | admitted {pts : Int32} (hn : p.boxes.entry k = none) (hpos : noPts < pts) :
      Stepped b p k ((LiveEntry.fresh k pts (nextUpdatesDeadline b.now)).begun b.now)
  | forced {e : LiveEntry} (hk : k ∈ b.force) (he : p.boxes.entry k = some e) :
      Stepped b p k { e with deadline := nextUpdatesDeadline b.now }
  | applied {u : Update} {info : PtsInfo} {pts : Int32} (hk : info.key = k)
      (hu : Storable info.key u) (hf : PtsInfo.fromUpdate u = some info)
      (hp : p.boxes.isGettingDiff info.key = false)
      (hpts : pts.toInt = ((p.target b info).accept u).1.position) :
      Stepped b p k ((p.target b info).after b u pts)

theorem Stepped.tooLong {k : Key} {c : Int} {e' : LiveEntry} (h : p.boxes.Inv)
    (hp : p.boxes.isGettingDiff (.channel c) = false) (pts : Option Int32)
    (he' : ((p.boxes.admitTooLong (.channel c) pts (nextUpdatesDeadline b.now)).tryBeginGetDiff
      (.channel c) b.now).entry k = some e') : Stepped b p k e' := by
  have h1 := h.admitTooLong (.channel c) pts (nextUpdatesDeadline b.now)
  rw [MessageBoxes.entry_tryBeginGetDiff h1] at he'
  rcases MessageBoxes.admitTooLong_cases p.boxes (.channel c) pts (nextUpdatesDeadline b.now) with
    hs | ⟨hn, q, _, hpos, hs⟩
  · rw [hs] at he'
    split at he'
    next hk =>
      subst hk
      obtain ⟨e, he, rfl⟩ := Option.map_eq_some_iff.mp he'
      have hnot : e.recoveryPending = false := by
        rwa [MessageBoxes.isGettingDiff_of_entry he] at hp
      rw [if_neg (by simp [hnot])]
      exact .begun he hnot
    next => exact .same he'
  · have hentry := MessageBoxes.entry_setEntry_of_key h.sorted
      (.fresh (.channel c) q (nextUpdatesDeadline b.now)) (k := .channel c) rfl
    rw [hs, hentry, hentry, if_pos rfl] at he'
    split at he'
    next hk =>
      subst hk
      obtain rfl := Option.some.inj he'
      exact .admitted hn hpos
    next => exact .same he'

theorem Processed.stepped {k : Key} {e' : LiveEntry} (hp : Processed b p u p') (h : p.boxes.Inv)
    (he' : p'.boxes.entry k = some e') : Stepped b p k e' := by
  cases hp with
  | tooLongPending => exact .same he'
  | @tooLong c pts hp => exact .tooLong h hp pts he'
  | unordered => exact .same he'
  | @forced u info _ _ hk =>
    simp only [MessageBoxes.entry_resetDeadline h.sorted] at he'
    split at he'
    next hkey =>
      subst hkey
      obtain ⟨e, he, rfl⟩ := Option.map_eq_some_iff.mp he'
      exact .forced hk he
    next => exact .same he'
  | @postponed u info =>
    obtain ⟨_, _, hs⟩ := MessageBoxes.postpone_eq h info.key u
    simp only [hs] at he'
    exact .same he'
  | preLogin => exact .same he'
  | @applied u info pts hu hf _ hp _ hpts =>
    obtain ⟨_, hkey⟩ := target_ok h b info
    have hkey' : ((p.target b info).after b u pts).key = info.key := hkey
    have hentry := MessageBoxes.entry_setEntry_of_key h.sorted ((p.target b info).after b u pts) hkey' k
    have he' := hentry.symm.trans he'
    split at he'
    next hk =>
      obtain rfl := Option.some.inj he'
      exact .applied hk.symm hu hf hp hpts
    next => exact .same he'

/-- What the updates of a difference do to an entry it is for. -/
structure Steady (e e' : LiveEntry) : Prop where
  pts : e'.pts = e.pts
  notBefore : e'.retryNotBefore = e.retryNotBefore
  gap : e.possibleGap = none → e'.possibleGap = none

/-- The updates of a difference move no position of the keys it is for. -/
theorem Processed.forced_entry {k : Key} {e : LiveEntry} (hp : Processed b p u p')
    (h : p.boxes.Inv) (hk : k ∈ b.force) (he : p.boxes.entry k = some e) :
    ∃ e', p'.boxes.entry k = some e' ∧ Steady e e' ∧
      (e'.recoveryPending = true → e.recoveryPending = true ∨
        ∃ c pts, k = .channel c ∧ u = .channelTooLong c pts) := by
  by_cases hu : u.key = some k
  · cases hp with
    | tooLongPending => exact ⟨e, he, ⟨rfl, rfl, id⟩, Or.inl⟩
    | @tooLong c pts =>
      obtain rfl := Option.some.inj hu
      have h1 := h.admitTooLong (.channel c) pts (nextUpdatesDeadline b.now)
      have he1 := MessageBoxes.entry_admitTooLong h.sorted he (.channel c) pts
        (nextUpdatesDeadline b.now)
      simp only [MessageBoxes.entry_tryBeginGetDiff h1, ↓reduceIte, he1, Option.map_some]
      refine ⟨_, rfl, ?_, fun _ => Or.inr ⟨c, pts, rfl, rfl⟩⟩
      split
      next => exact ⟨rfl, rfl, id⟩
      next => exact ⟨rfl, rfl, fun _ => rfl⟩
    | unordered => exact ⟨e, he, ⟨rfl, rfl, id⟩, Or.inl⟩
    | @forced u info hst =>
      obtain rfl := Option.some.inj (hst.update_key.symm.trans hu)
      simp only [MessageBoxes.entry_resetDeadline h.sorted, ↓reduceIte, he, Option.map_some]
      exact ⟨_, rfl, ⟨rfl, rfl, id⟩, Or.inl⟩
    | @postponed u info hst _ hnot =>
      obtain rfl := Option.some.inj (hst.update_key.symm.trans hu)
      exact absurd hk hnot
    | preLogin => exact ⟨e, he, ⟨rfl, rfl, id⟩, Or.inl⟩
    | @applied u info pts hst _ hnot =>
      obtain rfl := Option.some.inj (hst.update_key.symm.trans hu)
      exact absurd hk hnot
  · exact ⟨e, (hp.entry_other h hu).trans he, ⟨rfl, rfl, id⟩, Or.inl⟩

theorem Processed.path_forced_entry {k : Key} {e : LiveEntry} (hp : Path (Processed b) p us p')
    (h : p.boxes.Inv) (ha : p.boxes.Account) (hk : k ∈ b.force) (he : p.boxes.entry k = some e) :
    ∃ e', p'.boxes.entry k = some e' ∧ Steady e e' ∧
      (e'.recoveryPending = true → e.recoveryPending = true ∨
        ∃ c pts, k = .channel c ∧ .channelTooLong c pts ∈ us) := by
  induction hp generalizing e with
  | nil => exact ⟨e, he, ⟨rfl, rfl, id⟩, Or.inl⟩
  | @cons p p1 p2 u us hstep _ ih =>
    obtain ⟨e1, he1, hs1, hp1⟩ := hstep.forced_entry h hk he
    obtain ⟨hi1, ha1⟩ := hstep.inv h ha
    obtain ⟨e2, he2, hs2, hp2⟩ := ih hi1 ha1 he1
    refine ⟨e2, he2, ⟨hs2.pts.trans hs1.pts, hs2.notBefore.trans hs1.notBefore,
      fun hg => hs2.gap (hs1.gap hg)⟩, ?_⟩
    intro hpend
    rcases hp2 hpend with hpend | ⟨c, pts, rfl, hm⟩
    · rcases hp1 hpend with hpend | ⟨c, pts, rfl, rfl⟩
      · exact Or.inl hpend
      · exact Or.inr ⟨c, pts, rfl, by simp⟩
    · exact Or.inr ⟨c, pts, rfl, by simp [hm]⟩

end Grammers
