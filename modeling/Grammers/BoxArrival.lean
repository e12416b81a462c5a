import Grammers.BoxChain

namespace Grammers

open StableSort Reassembly LabelledPath

variable {b : Batch} {p p' : Processing} {u : Update} {us : List Update} {s s' : MessageBoxes}
  {e : LiveEntry} {k : Key} {result : List (Update × State)} {now : Instant}

/-- Updates arriving one after the other at the buffer of an entry. -/
def LiveEntry.acceptAll (e : LiveEntry) (us : List Update) : Buffer Update × List Update :=
  arriveAll updateSortKey updateEnd maxHeldUpdates popOrder e.buffer us

/-- An ordered update of a key that is not under recovery arrives at its entry. -/
theorem Processed.arrival (hp : Processed b p u p') (h : p.boxes.Inv) (ha : p.boxes.Account)
    (hf : b.force = []) (he : p.boxes.entry k = some e) (hnot : e.recoveryPending = false)
    (hu : Storable k u) :
    ∃ e', p'.boxes.entry k = some e' ∧ e'.recoveryPending = false ∧ e'.buffer = (e.accept u).1 ∧
      p'.result = p.result ++ (e.accept u).2.map b.deliver := by
  have hidle : p.boxes.isGettingDiff k = false := by
    rw [MessageBoxes.isGettingDiff_of_entry he, hnot]
  cases hp with
  | tooLongPending => exact absurd rfl (hu.ordinary _ _)
  | tooLong => exact absurd rfl (hu.ordinary _ _)
  | unordered _ hnone =>
    obtain ⟨info, hfrom, _⟩ := hu.known
    rw [hnone] at hfrom
    simp at hfrom
  | forced _ _ hk => simp [hf] at hk
  | @postponed u info hst _ _ hpend =>
    obtain rfl := Option.some.inj (hst.update_key.symm.trans hu.update_key)
    rw [hidle] at hpend
    simp at hpend
  | @preLogin u info hfrom _ hsec hnone =>
    obtain ⟨info', hfrom', hkey⟩ := hu.known
    obtain rfl := Option.some.inj (hfrom.symm.trans hfrom')
    rw [hsec] at hkey
    subst hkey
    have := ha (by simp [he])
    simp [hnone] at this
  | @applied u info pts hst _ _ _ _ hpts =>
    obtain rfl := Option.some.inj (hst.update_key.symm.trans hu.update_key)
    obtain ⟨_, hkey⟩ := target_ok h b info
    have htarget : p.target b info = e := by simp [Processing.target, he]
    rw [htarget] at hpts hkey ⊢
    have hkey' : (e.after b u pts).key = info.key := hkey
    refine ⟨e.after b u pts, ?_, hnot, ?_, rfl⟩
    · exact (MessageBoxes.entry_setEntry_of_key h.sorted _ hkey' info.key).trans (if_pos rfl)
    · exact buffer_after hpts b

/-- An update that is not about a key delivers nothing of it. -/
theorem Processed.result_other (hp : Processed b p u p') (h : p.boxes.Inv) (hf : b.force = [])
    (hk : u.key ≠ some k) : ∃ more, p'.result = p.result ++ more ∧ more.filter (names k) = [] := by
  cases hp with
  | tooLongPending => exact ⟨[], by simp, rfl⟩
  | tooLong => exact ⟨[], by simp, rfl⟩
  | unordered => exact ⟨_, rfl, rfl⟩
  | forced _ _ hk => simp [hf] at hk
  | postponed => exact ⟨[], by simp, rfl⟩
  | preLogin => exact ⟨_, rfl, rfl⟩
  | @applied u info pts hu =>
    obtain ⟨hok, hkey⟩ := target_ok h b info
    refine ⟨_, rfl, ?_⟩
    have hst : ∀ v ∈ ((p.target b info).accept u).2, Storable info.key v :=
      hkey ▸ accept_delivered_storable (hkey ▸ hu) hok.storable
    rw [filter_names_delivered hst, if_neg]
    rintro rfl
    exact hk hu.update_key

/-- A run of the loop over a batch, as one key sees it. -/
theorem Processed.path_arrivals (hp : Path (Processed b) p us p') (h : p.boxes.Inv)
    (ha : p.boxes.Account) (hf : b.force = []) (he : p.boxes.entry k = some e)
    (hnot : e.recoveryPending = false) (hu : ∀ u ∈ us, u.key = some k → Storable k u) :
    ∃ e' more, p'.boxes.entry k = some e' ∧ e'.recoveryPending = false ∧
      p'.result = p.result ++ more ∧
      e.acceptAll (us.filter fun u => u.key = some k) =
        (e'.buffer, (more.filter (names k)).map Prod.fst) := by
  induction hp generalizing e with
  | nil => exact ⟨e, [], he, hnot, by simp, rfl⟩
  | @cons p p1 p2 u us hstep _ ih =>
    obtain ⟨hi, hacc⟩ := hstep.inv h ha
    have htail : ∀ v ∈ us, v.key = some k → Storable k v := fun v hv => hu v (by simp [hv])
    by_cases hk : u.key = some k
    · have hst := hu u (by simp) hk
      obtain ⟨e1, he1, hnot1, hbuf, hr1⟩ := hstep.arrival h ha hf he hnot hst
      obtain ⟨e2, more, he2, hnot2, hr2, hall⟩ := ih hi hacc he1 hnot1 htail
      have hdelivered : ∀ v ∈ (e.accept u).2, Storable k v :=
        accept_delivered_storable hst (h.entry_key he ▸ (h.entryOk k e he).storable)
      have hfst : Prod.fst ∘ b.deliver = id := rfl
      refine ⟨e2, (e.accept u).2.map b.deliver ++ more, he2, hnot2, by rw [hr2, hr1, List.append_assoc], ?_⟩
      rw [List.filter_append, filter_names_delivered hdelivered, if_pos rfl]
      rw [LiveEntry.acceptAll, hbuf] at hall
      simp only [List.filter_cons, hk, decide_true, ↓reduceIte, LiveEntry.acceptAll, arriveAll]
      rw [show arrive updateSortKey updateEnd maxHeldUpdates popOrder e.buffer u = e.accept u from rfl,
        hall]
      simp [hfst]
    · obtain ⟨more1, hr1, hnone⟩ := hstep.result_other h hf hk
      have he1 := (hstep.entry_other h hk).trans he
      obtain ⟨e2, more, he2, hnot2, hr2, hall⟩ := ih hi hacc he1 hnot htail
      refine ⟨e2, more1 ++ more, he2, hnot2, by rw [hr2, hr1, List.append_assoc], ?_⟩
      rw [List.filter_append, hnone, List.nil_append, ← hall]
      simp [hk]

/-- A socket batch, as one key sees it: its updates arrive in sorted order. -/
theorem Batched.arrivals (hb : Batched b s us s' result) (h : s.Inv) (ha : s.Account)
    (hf : b.force = []) (he : s.entry k = some e) (hnot : e.recoveryPending = false)
    (hu : ∀ u ∈ us, u.key = some k → Storable k u) :
    ∃ e', s'.entry k = some e' ∧ e'.recoveryPending = false ∧
      e.acceptAll ((sortByKey updateSortKey us).filter fun u => u.key = some k) =
        (e'.buffer, (result.filter (names k)).map Prod.fst) := by
  obtain ⟨p, hp, rfl, hs⟩ := hb
  obtain ⟨e', more, he', hnot', hr, hall⟩ := Processed.path_arrivals hp h ha hf he hnot
    fun u hm => hu u (mem_sortUpdatesByKey.mp hm)
  rw [sortUpdatesByKey_eq] at hall
  refine ⟨e', ?_, hnot', by rw [hall, hr, List.nil_append]⟩
  rcases hs with rfl | rfl
  · exact he'
  · exact he'

end Grammers
