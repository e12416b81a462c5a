import Grammers.ReplayIds
import Mathlib.Data.Finset.Fold
import Mathlib.Data.Finset.Sort
import Mathlib.Data.Int.ConditionallyCompleteOrder

namespace Grammers

open SortedSearch

/-- A plain history: the set of identifiers it retains, and a floor that covers the others. -/
structure History where
  ids : Finset Int
  floor : Int

namespace History

def empty : History where
  ids := ∅
  floor := 0

def newest (h : History) (id : Int) : Int := h.ids.fold max id fun x => x

def oldestAllowed (h : History) (id : Int) : Int := h.newest id - maxAge.toInt

/-- Too old for the newest, or below all of a full history. -/
def Rejects (h : History) (id : Int) : Prop :=
  id < h.oldestAllowed id ∨ h.ids.card = replayCapacity ∧ ∀ x ∈ h.ids, id < x

instance (h : History) (id : Int) : Decidable (h.Rejects id) :=
  inferInstanceAs (Decidable (_ ∨ _))

def aged (h : History) (id : Int) : Finset Int := h.ids.filter (· < h.oldestAllowed id)

/-- The minimum, where the history is full without what is too old. -/
def crowded (h : History) (id : Int) : Finset Int :=
  let kept := h.ids \ h.aged id
  if kept.card = replayCapacity then kept.filter fun x => ∀ y ∈ kept, x ≤ y else ∅

def remember (h : History) (id : Int) : History :=
  if h.Rejects id then { h with floor := max h.floor id }
  else
    let gone := h.aged id ∪ h.crowded id
    { ids := insert id (h.ids \ gone)
      floor := gone.fold max h.floor fun x => x }

end History

theorem exists_mem_map {α β : Type*} {f : α → β} {l : List α} {p : β → Prop} :
    (∃ y ∈ l.map f, p y) ↔ ∃ x ∈ l, p (f x) := by
  simp

namespace ReplayIds

variable {r : ReplayIds} {id : Int64} {o : Offset}

theorem Fits.newest_spec (h : r.Fits) (id : Int64) :
    id.toInt ≤ (r.newest id).toInt ∧ (∀ x ∈ r.values, x.toInt ≤ (r.newest id).toInt) ∧
      ((r.newest id).toInt = id.toInt ∨
        ∃ last, r.offsets.getLast? = some last ∧ (r.id last).toInt = (r.newest id).toInt) := by
  unfold newest
  cases hl : r.offsets.getLast? with
  | none =>
    have hnil := List.getLast?_eq_none_iff.mp hl
    exact ⟨le_rfl, by simp [values, hnil], Or.inl rfl⟩
  | some last =>
    have hlast : last ∈ r.offsets := List.mem_of_getLast? hl
    simp only [Option.map_some, Option.elim_some, toInt_max]
    refine ⟨le_max_right _ _, ?_, ?_⟩
    · intro x hx
      obtain ⟨o, ho, rfl⟩ := List.mem_map.mp hx
      refine le_trans (not_lt.mp fun hlt => ?_) (le_max_left _ _)
      exact absurd ((h.id_lt_iff hlast ho).mp hlt) (not_lt.mpr (h.sorted.le_getLast ho hl))
    · rcases le_total (r.id last).toInt id.toInt with hle | hle
      · exact Or.inl (max_eq_right hle)
      · exact Or.inr ⟨last, rfl, (max_eq_left hle).symm⟩

/-- What leaves a history before a new identifier is stored: all that is too old, and the
first of a full rest. -/
structure Evicts (r : ReplayIds) (id : Int64) (gone rest : List Offset) : Prop where
  split : r.offsets = gone ++ rest
  short : rest.length < replayCapacity
  kept : ∀ o ∈ rest, (r.newest id).toInt - maxAge.toInt ≤ (r.id o).toInt
  newest : (r.newest id).toInt = id.toInt ∨ ∃ o ∈ rest, (r.id o).toInt = (r.newest id).toInt
  aged : (∀ o ∈ gone, (r.id o).toInt < (r.newest id).toInt - maxAge.toInt) ∨
    (∃ first, gone = [first] ∧ r.offsets.length = replayCapacity ∧
      ∀ o ∈ r.offsets, (r.newest id).toInt - maxAge.toInt ≤ (r.id o).toInt)

theorem Ok.evicts (h : r.Ok) (hpos : 0 < id.toInt) :
    ∃ gone rest, r.Evicts id gone rest ∧
      r.evict (saturatingSub64 (r.newest id) maxAge) = (rest, gone.getLast?.map r.id) := by
  obtain ⟨hid, hall, hnew⟩ := h.newest_spec id
  have hold := toInt_saturatingSub64 (lt_of_lt_of_le hpos hid)
  generalize saturatingSub64 (r.newest id) maxAge = oldest at hold ⊢
  obtain ⟨p, hp⟩ : ∃ p : Offset → Bool, p = fun o => decide (r.id o < oldest) := ⟨_, rfl⟩
  have hp_iff : ∀ o, p o = true ↔ (r.id o).toInt < (r.newest id).toInt - maxAge.toInt := by
    intro o
    rw [hp, decide_eq_true_eq, Int64.lt_iff_toInt_lt, hold]
  have hsplit : r.offsets = r.offsets.takeWhile p ++ r.offsets.dropWhile p :=
    List.takeWhile_append_dropWhile.symm
  have hkept : ∀ o ∈ r.offsets.dropWhile p,
      (r.newest id).toInt - maxAge.toInt ≤ (r.id o).toInt := by
    intro o ho
    have hnot := h.sorted.not_of_mem_dropWhile (p := p) (fun a ha b hb hlt hpb => ?_) o ho
    · exact not_lt.mp fun hlt => by simp [(hp_iff o).mpr hlt] at hnot
    · rw [hp_iff] at hpb ⊢
      exact ((h.id_lt_iff ha hb).mpr hlt).trans hpb
  have haged : ∀ o ∈ r.offsets.takeWhile p,
      (r.id o).toInt < (r.newest id).toInt - maxAge.toInt :=
    fun o ho => (hp_iff o).mp (List.all_eq_true.mp List.all_takeWhile o ho)
  have hlast : ∀ last, r.offsets.getLast? = some last → (r.id last).toInt = (r.newest id).toInt →
      (r.offsets.dropWhile p).getLast? = some last := by
    intro last hl hle
    rw [hsplit, List.getLast?_append] at hl
    cases hd : (r.offsets.dropWhile p).getLast? with
    | some x => simpa [hd] using hl
    | none =>
      have hmem : last ∈ r.offsets.takeWhile p := by
        rw [hd, Option.none_or] at hl
        exact List.mem_of_getLast? hl
      have := haged last hmem
      have := toInt_maxAge
      omega
  have hlen := h.short
  rw [hsplit, List.length_append] at hlen
  unfold evict
  simp only [evictOld_eq, ← hp, Option.or_none]
  split
  next hfull =>
    -- a full rest means that nothing was too old
    have hnil : r.offsets.takeWhile p = [] := List.length_eq_zero_iff.mp (by omega)
    have hoffsets : r.offsets.dropWhile p = r.offsets := by
      conv_rhs => rw [hsplit, hnil, List.nil_append]
    rw [hoffsets] at hfull hkept hlast ⊢
    cases ho : r.offsets with
    | nil => simp [ho, replayCapacity] at hfull
    | cons first rest =>
      rw [ho, List.length_cons] at hfull
      refine ⟨[first], rest, ⟨ho, by omega, ?_, ?_, Or.inr ⟨first, rfl, ?_, hkept⟩⟩, rfl⟩
      · exact fun o hm => hkept o (by simp [ho, hm])
      · refine hnew.imp_right fun ⟨last, hl, hle⟩ => ⟨last, ?_, hle⟩
        cases rest with
        | nil => simp [replayCapacity] at hfull
        | cons second rest =>
          rw [ho, List.getLast?_cons_cons] at hl
          exact List.mem_of_getLast? hl
      · rw [ho, List.length_cons, hfull]
  next hfull =>
    refine ⟨_, _, ⟨hsplit, by omega, hkept, ?_, Or.inl haged⟩, rfl⟩
    exact hnew.imp_right fun ⟨last, hl, hle⟩ =>
      ⟨last, List.mem_of_getLast? (hlast last hl hle), hle⟩

/-- Whether an identifier is too old, or below all of a full history. -/
def Rejects (r : ReplayIds) (id : Int64) : Prop :=
  id < saturatingSub64 (r.newest id) maxAge ∨ (r.offsets.length = replayCapacity ∧
    r.offsets.head?.any fun first => decide (id < r.id first))

theorem remember_of_rejects (h : r.Rejects id) : r.remember id = (r, some id) := if_pos h

theorem remember_of_not_rejects (h : ¬r.Rejects id) : r.remember id =
    (store { r with offsets := (r.evict (saturatingSub64 (r.newest id) maxAge)).1 } id
      (saturatingSub64 (r.newest id) maxAge), (r.evict (saturatingSub64 (r.newest id) maxAge)).2) :=
  if_neg h

theorem Ok.rejects_iff (h : r.Ok) (hpos : 0 < id.toInt) : r.Rejects id ↔
    id.toInt < (r.newest id).toInt - maxAge.toInt ∨
      r.offsets.length = replayCapacity ∧ ∀ x ∈ r.values, id.toInt < x.toInt := by
  obtain ⟨hid, _, _⟩ := h.newest_spec id
  have hold := toInt_saturatingSub64 (lt_of_lt_of_le hpos hid)
  unfold Rejects
  rw [Int64.lt_iff_toInt_lt, hold]
  refine or_congr_right (and_congr_right fun hlen => ?_)
  cases hh : r.offsets.head? with
  | none =>
    have hnil := List.head?_eq_none_iff.mp hh
    simp [hnil, replayCapacity] at hlen
  | some first =>
    have hmem : first ∈ r.offsets := List.mem_of_head? hh
    simp only [Option.any_some, decide_eq_true_eq, Int64.lt_iff_toInt_lt]
    constructor
    · intro hlt x hx
      obtain ⟨o, ho, rfl⟩ := List.mem_map.mp hx
      refine hlt.trans_le (not_lt.mp fun hlt' => ?_)
      exact absurd ((h.id_lt_iff ho hmem).mp hlt') (not_lt.mpr (h.sorted.head_le ho hh))
    · exact fun hall => hall _ (List.mem_map_of_mem hmem)

/-- Storing an identifier keeps all that was left of the history, whichever base it uses. -/
theorem Evicts.stored {gone rest : List Offset} (he : r.Evicts id gone rest) (h : r.Ok)
    (hpos : 0 < id.toInt) (hnew : id ∉ r.values) (hnot : ¬r.Rejects id) :
    (store { r with offsets := rest } id (saturatingSub64 (r.newest id) maxAge)).Ok ∧
      ∀ x, x ∈ (store { r with offsets := rest } id (saturatingSub64 (r.newest id) maxAge)).values ↔
        x = id ∨ x ∈ rest.map r.id := by
  obtain ⟨hid, hall, _⟩ := h.newest_spec id
  have hold := toInt_saturatingSub64 (lt_of_lt_of_le hpos hid)
  have hage := toInt_maxAge
  rw [h.rejects_iff hpos, not_or] at hnot
  generalize saturatingSub64 (r.newest id) maxAge = oldest at hold ⊢
  have hsub : rest.Sublist r.offsets := he.split ▸ List.sublist_append_right _ _
  have hf : Fits { r with offsets := rest } := h.toFits.sublist hsub
  have hvalues : ∀ x ∈ rest.map r.id, oldest.toInt ≤ x.toInt ∧ x.toInt ≤ (r.newest id).toInt := by
    intro x hx
    obtain ⟨o, ho, rfl⟩ := List.mem_map.mp hx
    exact ⟨hold ▸ he.kept o ho, hall _ (List.mem_map_of_mem (hsub.subset ho))⟩
  have hfresh : id ∉ rest.map r.id := by
    intro hm
    obtain ⟨o, ho, hoid⟩ := List.mem_map.mp hm
    exact hnew (hoid ▸ List.mem_map_of_mem (hsub.subset ho))
  -- both bases store the identifier without a wrap, and are far enough below the newest
  obtain ⟨r2, o, hr2, hf2, hv2, hlen2, hnum, hbase⟩ : ∃ (r2 : ReplayIds) (o : Offset),
      store { r with offsets := rest } id oldest = r2.insertOffset o ∧ r2.Fits ∧
      r2.values = rest.map r.id ∧ r2.offsets.length = rest.length ∧
      r2.base.toInt + o.number = id.toInt ∧
      r2.base.toInt + maxAge.toInt ≤ (r.newest id).toInt := by
    unfold ReplayIds.store
    split
    next o ho =>
      obtain ⟨ho, hne⟩ := Option.filter_eq_some_iff.mp ho
      obtain ⟨first, hfirst⟩ : ∃ first, first ∈ rest := List.exists_mem_of_ne_nil _ (by simpa using hne)
      obtain ⟨x, hx, hbased⟩ := h.based (List.ne_nil_of_mem (List.mem_map_of_mem (hsub.subset hfirst)))
      have hnewest := hall x hx
      refine ⟨_, o, rfl, hf, rfl, rfl, ?_, by show r.base.toInt + _ ≤ _; omega⟩
      have hnat := toNat_sub_base (show r.base.toInt ≤ id.toInt by omega)
      simp only [ReplayIds.offset] at ho
      split at ho
      next hlt =>
        obtain rfl := Option.some.inj ho
        rw [number_pack hlt]
        show r.base.toInt + _ = _
        omega
      next => simp at ho
    next =>
      obtain ⟨hf', hv'⟩ := @Fits.rebase _ hf oldest fun x hx => ⟨(hvalues x hx).1, by
        have := hvalues x hx
        omega⟩
      refine ⟨_, _, rfl, hf', hv', by simp [ReplayIds.rebase], ?_, ?_⟩
      · exact (number_pack_sub (show oldest.toInt ≤ id.toInt by omega) (by omega)).2
      · show oldest.toInt + maxAge.toInt ≤ _
        omega
  obtain ⟨hf3, hmem, hlen, hb3⟩ := hf2.insertOffset hnum hpos (hv2 ▸ hfresh)
  rw [hr2]
  rw [hv2] at hmem
  refine ⟨⟨hf3, ?_, ?_, ?_⟩, hmem⟩
  · have := he.short
    omega
  · have hrange : ∀ x ∈ (r2.insertOffset o).values,
        oldest.toInt ≤ x.toInt ∧ x.toInt ≤ (r.newest id).toInt := by
      intro x hx
      rcases (hmem x).mp hx with rfl | hx
      · omega
      · exact hvalues x hx
    intro x hx y hy
    have := hrange x hx
    have := hrange y hy
    omega
  · intro _
    rw [hb3]
    rcases he.newest with heq | ⟨o', ho', heq⟩
    · exact ⟨id, (hmem id).mpr (Or.inl rfl), by omega⟩
    · exact ⟨r.id o', (hmem _).mpr (Or.inr (List.mem_map_of_mem ho')), by omega⟩

theorem Ok.remember (h : r.Ok) (hpos : 0 < id.toInt) (hnew : id ∉ r.values) (hnot : ¬r.Rejects id) :
    ∃ gone rest, r.Evicts id gone rest ∧ (r.remember id).2 = gone.getLast?.map r.id ∧
      (r.remember id).1.Ok ∧ ∀ x, x ∈ (r.remember id).1.values ↔ x = id ∨ x ∈ rest.map r.id := by
  obtain ⟨gone, rest, he, hevict⟩ := h.evicts hpos
  rw [remember_of_not_rejects hnot, hevict]
  exact ⟨gone, rest, he, rfl, he.stored h hpos hnew hnot⟩

theorem new_ok : new.Ok :=
  ⟨⟨List.Pairwise.nil, by simp [new]⟩, by simp [new], by simp [new, values], by simp [new, values]⟩

end ReplayIds

/-- What a session keeps of the server messages it has seen. -/
structure Received where
  ids : ReplayIds
  floor : Int64

namespace Received

def new : Received where
  ids := .new
  floor := 0

def rememberReceived (s : Received) (id : Int64) : Received :=
  let (ids, evicted) := s.ids.remember id
  { ids := ids
    floor := evicted.elim s.floor (max s.floor) }

/-- Only identifiers that are not retained are recorded. -/
def observe (s : Received) (id : Int64) : Received :=
  if s.ids.contains id then s else s.rememberReceived id

end Received

def History.observe (h : History) (id : Int) : History := if id ∈ h.ids then h else h.remember id

/-- A packed history and a plain one retain and cover the same identifiers. -/
structure Refines (s : Received) (h : History) : Prop where
  ok : s.ids.Ok
  ids : ∀ x, x ∈ h.ids ↔ ∃ y ∈ s.ids.values, y.toInt = x
  floor : s.floor.toInt = h.floor

namespace Refines

variable {s : Received} {h : History} {id : Int64}

theorem mem_iff (hr : Refines s h) (id : Int64) : id.toInt ∈ h.ids ↔ id ∈ s.ids.values := by
  rw [hr.ids]
  constructor
  · rintro ⟨y, hy, heq⟩
    exact Int64.toInt_inj.mp heq ▸ hy
  · exact fun hm => ⟨id, hm, rfl⟩

theorem mem_ids_iff (hr : Refines s h) (x : Int) :
    x ∈ h.ids ↔ ∃ o ∈ s.ids.offsets, (s.ids.id o).toInt = x := by
  rw [hr.ids]
  exact exists_mem_map

theorem contains_iff (hr : Refines s h) (id : Int64) :
    s.ids.contains id = true ↔ id.toInt ∈ h.ids := by
  rw [ReplayIds.contains_iff hr.ok.sorted, hr.mem_iff]

/-- The identifiers retained are those of the plain history in order. -/
theorem values_eq (hr : Refines s h) : s.ids.values.map Int64.toInt = h.ids.sort (· ≤ ·) := by
  have hsorted : (s.ids.values.map Int64.toInt).Pairwise (· < ·) := by
    unfold ReplayIds.values
    rw [List.map_map]
    refine List.pairwise_map.mpr (List.Pairwise.imp_of_mem ?_ hr.ok.sorted)
    exact fun ho ho' hlt => (hr.ok.id_lt_iff ho ho').mpr hlt
  have hset : (s.ids.values.map Int64.toInt).toFinset = h.ids := by
    ext x
    rw [hr.ids, List.mem_toFinset, List.mem_map]
  rw [← hset]
  exact ((List.toFinset_sort (· ≤ ·) (hsorted.imp fun hlt => hlt.ne)).mpr
    (hsorted.imp fun hlt => hlt.le)).symm

theorem card_eq (hr : Refines s h) : h.ids.card = s.ids.offsets.length := by
  rw [← Finset.length_sort (· ≤ ·), ← hr.values_eq]
  simp [ReplayIds.values]

theorem newest_eq (hr : Refines s h) (id : Int64) : (s.ids.newest id).toInt = h.newest id.toInt := by
  obtain ⟨h1, h2, h3⟩ := hr.ok.newest_spec id
  refine le_antisymm ((Finset.le_fold_max _).mpr ?_) ((Finset.fold_max_le _).mpr ⟨h1, ?_⟩)
  · rcases h3 with heq | ⟨last, hl, heq⟩
    · exact Or.inl heq.le
    · refine Or.inr ⟨_, (hr.mem_iff _).mpr (List.mem_map_of_mem (List.mem_of_getLast? hl)), heq.ge⟩
  · intro x hx
    obtain ⟨y, hy, rfl⟩ := (hr.ids x).mp hx
    exact h2 y hy

theorem rejects_iff (hr : Refines s h) (hpos : 0 < id.toInt) :
    s.ids.Rejects id ↔ h.Rejects id.toInt := by
  rw [hr.ok.rejects_iff hpos, History.Rejects, History.oldestAllowed, hr.newest_eq, hr.card_eq]
  refine or_congr_right (and_congr_right fun _ => ?_)
  constructor
  · intro hall x hx
    obtain ⟨y, hy, rfl⟩ := (hr.ids x).mp hx
    exact hall y hy
  · exact fun hall y hy => hall _ ((hr.mem_iff y).mpr hy)

/-- What leaves the plain history is what leaves the packed one. -/
theorem gone_iff (hr : Refines s h) {gone rest : List Offset} (he : s.ids.Evicts id gone rest) (x : Int) :
    x ∈ h.aged id.toInt ∪ h.crowded id.toInt ↔ ∃ o ∈ gone, (s.ids.id o).toInt = x := by
  have hold : h.oldestAllowed id.toInt = (s.ids.newest id).toInt - maxAge.toInt := by
    rw [History.oldestAllowed, hr.newest_eq]
  have hids : ∀ x, x ∈ h.ids ↔ ∃ o ∈ gone ++ rest, (s.ids.id o).toInt = x := by
    intro x
    rw [hr.mem_ids_iff, he.split]
  have haged : ∀ x, x ∈ h.aged id.toInt ↔ x ∈ h.ids ∧ x < (s.ids.newest id).toInt - maxAge.toInt := by
    intro x
    rw [History.aged, Finset.mem_filter, hold]
  rw [Finset.mem_union]
  rcases he.aged with hgone | ⟨first, rfl, hfull, hall⟩
  · -- nothing is crowded out of a rest that is not full
    have hcrowded : h.crowded id.toInt = ∅ := by
      unfold History.crowded
      simp only
      refine if_neg fun hcard => ?_
      have hsub : h.ids \ h.aged id.toInt ⊆ (rest.map fun o => (s.ids.id o).toInt).toFinset := by
        intro y hy
        obtain ⟨hy1, hy2⟩ := Finset.mem_sdiff.mp hy
        obtain ⟨o, ho, rfl⟩ := (hids y).mp hy1
        rw [List.mem_toFinset, List.mem_map]
        rcases List.mem_append.mp ho with ho | ho
        · exact absurd ((haged _).mpr ⟨hy1, hgone o ho⟩) hy2
        · exact ⟨o, ho, rfl⟩
      have hle := (Finset.card_le_card hsub).trans (List.toFinset_card_le _)
      have := he.short
      rw [List.length_map] at hle
      omega
    rw [hcrowded, haged, hids]
    constructor
    · rintro (⟨⟨o, ho, rfl⟩, hlt⟩ | hm)
      · rcases List.mem_append.mp ho with ho | ho
        · exact ⟨o, ho, rfl⟩
        · exact absurd hlt (not_lt.mpr (he.kept o ho))
      · simp at hm
    · rintro ⟨o, ho, rfl⟩
      exact Or.inl ⟨⟨o, by simp [ho], rfl⟩, hgone o ho⟩
  · have hnone : h.aged id.toInt = ∅ := by
      refine Finset.eq_empty_of_forall_notMem fun y hy => ?_
      obtain ⟨hy1, hy2⟩ := (haged y).mp hy
      obtain ⟨o, ho, rfl⟩ := (hids y).mp hy1
      exact absurd hy2 (not_lt.mpr (hall o (he.split ▸ ho)))
    have hmin : ∀ y ∈ h.ids, (s.ids.id first).toInt ≤ y := by
      intro y hy
      obtain ⟨o, ho, rfl⟩ := (hids y).mp hy
      have hfirst : s.ids.offsets.head? = some first := by
        rw [he.split]
        rfl
      rw [← he.split] at ho
      refine not_lt.mp fun hlt => ?_
      exact absurd ((hr.ok.id_lt_iff ho (List.mem_of_head? hfirst)).mp hlt)
        (not_lt.mpr (hr.ok.sorted.head_le ho hfirst))
    have hfirst : (s.ids.id first).toInt ∈ h.ids := (hids _).mpr ⟨first, by simp, rfl⟩
    have hcrowded : h.crowded id.toInt = {(s.ids.id first).toInt} := by
      unfold History.crowded
      simp only [hnone, Finset.sdiff_empty]
      rw [if_pos (hr.card_eq.trans hfull)]
      ext y
      rw [Finset.mem_filter, Finset.mem_singleton]
      constructor
      · exact fun ⟨hy, hle⟩ => le_antisymm (hle _ hfirst) (hmin y hy)
      · rintro rfl
        exact ⟨hfirst, hmin⟩
    rw [hnone, hcrowded]
    simp [eq_comm]

theorem rememberReceived (hr : Refines s h) (hpos : 0 < id.toInt) (hnew : id ∉ s.ids.values) :
    Refines (s.rememberReceived id) (h.remember id.toInt) := by
  by_cases hrej : s.ids.Rejects id
  · simp only [Received.rememberReceived, ReplayIds.remember_of_rejects hrej, History.remember,
      if_pos ((hr.rejects_iff hpos).mp hrej)]
    exact ⟨hr.ok, hr.ids, by rw [Option.elim_some, ReplayIds.toInt_max, hr.floor]⟩
  · obtain ⟨gone, rest, he, hevict, hok, hmem⟩ := hr.ok.remember hpos hnew hrej
    have hgone := hr.gone_iff he
    have hrej' : ¬h.Rejects id.toInt := fun hc => hrej ((hr.rejects_iff hpos).mpr hc)
    have hlt := he.split ▸ hr.ok.sorted
    have hless : ∀ o ∈ gone, ∀ o' ∈ rest, (s.ids.id o).toInt < (s.ids.id o').toInt := by
      intro o ho o' ho'
      refine (hr.ok.id_lt_iff ?_ ?_).mpr ((List.pairwise_append.mp hlt).2.2 o ho o' ho')
      · simp [he.split, ho]
      · simp [he.split, ho']
    simp only [History.remember, if_neg hrej']
    refine ⟨hok, ?_, ?_⟩
    · intro x
      have hvalues : (∃ y ∈ (s.ids.remember id).1.values, y.toInt = x) ↔
          x = id.toInt ∨ ∃ o ∈ rest, (s.ids.id o).toInt = x := by
        simp only [hmem, or_and_right, exists_or, exists_eq_left]
        exact or_congr eq_comm exists_mem_map
      refine Iff.trans ?_ hvalues.symm
      rw [Finset.mem_insert, Finset.mem_sdiff, hgone, hr.mem_ids_iff, he.split]
      refine or_congr_right ⟨?_, ?_⟩
      · rintro ⟨⟨o, ho, rfl⟩, hno⟩
        rcases List.mem_append.mp ho with ho | ho
        · exact absurd ⟨o, ho, rfl⟩ hno
        · exact ⟨o, ho, rfl⟩
      · rintro ⟨o, ho, rfl⟩
        refine ⟨⟨o, by simp [ho], rfl⟩, ?_⟩
        rintro ⟨o', ho', heq⟩
        exact (hless o' ho' o ho).ne heq
    · show ((s.ids.remember id).2.elim s.floor (max s.floor)).toInt = _
      rw [hevict]
      cases hl : gone.getLast? with
      | none =>
        have hnil := List.getLast?_eq_none_iff.mp hl
        have hempty : h.aged id.toInt ∪ h.crowded id.toInt = ∅ :=
          Finset.eq_empty_of_forall_notMem fun x hx => by simpa [hnil] using (hgone x).mp hx
        rw [hempty]
        exact hr.floor
      | some last =>
        have hlast : last ∈ gone := List.mem_of_getLast? hl
        rw [Option.map_some, Option.elim_some, ReplayIds.toInt_max, hr.floor]
        refine le_antisymm (max_le ?_ ?_) ((Finset.fold_max_le _).mpr ⟨le_max_left _ _, ?_⟩)
        · exact (Finset.le_fold_max _).mpr (Or.inl le_rfl)
        · exact (Finset.le_fold_max _).mpr (Or.inr ⟨_, (hgone _).mpr ⟨last, hlast, rfl⟩, le_rfl⟩)
        · intro x hx
          obtain ⟨o, ho, rfl⟩ := (hgone x).mp hx
          refine le_max_of_le_right (not_lt.mp fun hlt' => ?_)
          have hle := Sorted.le_getLast (List.pairwise_append.mp hlt).1 ho hl
          refine absurd ((hr.ok.id_lt_iff ?_ ?_).mp hlt') (not_lt.mpr hle)
          · simp [he.split, hlast]
          · simp [he.split, ho]

end Refines

theorem Refines.observe {s : Received} {h : History} {id : Int64} (hr : Refines s h)
    (hpos : 0 < id.toInt) : Refines (s.observe id) (h.observe id.toInt) := by
  unfold Received.observe History.observe
  by_cases hc : s.ids.contains id = true
  · rw [if_pos hc, if_pos ((hr.contains_iff id).mp hc)]
    exact hr
  · rw [if_neg hc, if_neg fun hm => hc ((hr.contains_iff id).mpr hm)]
    exact hr.rememberReceived hpos ((ReplayIds.contains_iff hr.ok.sorted).not.mp hc)

/-- Identifiers that cannot be taken for new ones. -/
def History.Covers (h : History) (id : Int) : Prop := id ∈ h.ids ∨ id ≤ h.floor

/-- What leaves a history is covered by its floor. -/
theorem History.covers_remember {h : History} {id x : Int} (hx : x = id ∨ h.Covers x) :
    (h.remember id).Covers x := by
  unfold History.remember
  split
  next =>
    rcases hx with rfl | hx | hx
    · exact Or.inr (le_max_right _ _)
    · exact Or.inl hx
    · exact Or.inr (hx.trans (le_max_left _ _))
  next =>
    rcases hx with rfl | hx | hx
    · exact Or.inl (Finset.mem_insert_self _ _)
    · by_cases hg : x ∈ h.aged id ∪ h.crowded id
      · exact Or.inr ((Finset.le_fold_max _).mpr (Or.inr ⟨x, hg, le_rfl⟩))
      · exact Or.inl (Finset.mem_insert_of_mem (Finset.mem_sdiff.mpr ⟨hx, hg⟩))
    · exact Or.inr ((Finset.le_fold_max _).mpr (Or.inl hx))

theorem History.covers_observe {h : History} {id x : Int} (hx : x = id ∨ h.Covers x) :
    (h.observe id).Covers x := by
  unfold History.observe
  split
  next hm =>
    rcases hx with rfl | hx
    · exact Or.inl hm
    · exact hx
  next => exact History.covers_remember hx

theorem History.covers_foldl {h : History} {ids : List Int} {x : Int} (hx : x ∈ ids ∨ h.Covers x) :
    (ids.foldl History.observe h).Covers x := by
  induction ids generalizing h with
  | nil => exact hx.resolve_left (by simp)
  | cons id ids ih =>
    refine ih ?_
    rcases hx with hx | hx
    · rcases List.mem_cons.mp hx with rfl | hx
      · exact Or.inr (History.covers_observe (Or.inl rfl))
      · exact Or.inl hx
    · exact Or.inr (History.covers_observe (Or.inr hx))

theorem Refines.foldl {s : Received} {h : History} {ids : List Int64} (hr : Refines s h)
    (hpos : ∀ id ∈ ids, 0 < id.toInt) :
    Refines (ids.foldl Received.observe s) ((ids.map Int64.toInt).foldl History.observe h) := by
  induction ids generalizing s h with
  | nil => exact hr
  | cons id ids ih =>
    exact ih (hr.observe (hpos id (by simp))) fun id' hid' => hpos id' (by simp [hid'])

theorem Refines.new : Refines Received.new History.empty :=
  ⟨ReplayIds.new_ok, by simp [History.empty, Received.new, ReplayIds.new, ReplayIds.values], rfl⟩

/-- A packed history shows what a plain one does, in offsets that keep their order, number
and size. -/
structure Faithful (s : Received) (h : History) : Prop where
  contains : ∀ id : Int64, s.ids.contains id = decide (id.toInt ∈ h.ids)
  retained : s.ids.values.map Int64.toInt = h.ids.sort (· ≤ ·)
  floor : s.floor.toInt = h.floor
  sorted : s.ids.offsets.Pairwise fun a b => a.order < b.order
  short : s.ids.offsets.length ≤ 1024
  fits : ∀ o ∈ s.ids.offsets, (s.ids.id o).toInt = s.ids.base.toInt + o.number ∧ o.number < 2 ^ 48

theorem Refines.faithful {s : Received} {h : History} (hr : Refines s h) : Faithful s h where
  contains := fun id => Bool.eq_iff_iff.mpr (by rw [hr.contains_iff, decide_eq_true_eq])
  retained := hr.values_eq
  floor := hr.floor
  sorted := hr.ok.sorted
  short := hr.ok.short
  fits := fun o ho => ⟨hr.ok.toInt_id ho, o.number_lt⟩

/-- Whatever positive identifiers are fed to it, the packed history agrees with the plain
one, and none of them can be taken for a new one again. -/
theorem replay_refines_history (ids : List Int64) (hpos : ∀ id ∈ ids, 0 < id.toInt) :
    Faithful (ids.foldl Received.observe .new) ((ids.map Int64.toInt).foldl History.observe .empty) ∧
      ∀ id ∈ ids, (ids.foldl Received.observe .new).ids.contains id = true ∨
        id ≤ (ids.foldl Received.observe .new).floor := by
  have hr := Refines.new.foldl hpos
  refine ⟨hr.faithful, fun id hid => ?_⟩
  rcases History.covers_foldl (h := .empty) (Or.inl (List.mem_map_of_mem hid)) with hm | hle
  · exact Or.inl ((hr.contains_iff id).mpr hm)
  · exact Or.inr (Int64.le_iff_toInt_le.mpr (hr.floor ▸ hle))

/-- A message more than the age limit ahead evicts an earlier one, and moves the base. -/
theorem replay_refines_history_jump :
    (∀ id ∈ [5, maxAge + 6, 5], 0 < id.toInt) ∧
      Faithful ([5, maxAge + 6, 5].foldl Received.observe .new)
        (([5, maxAge + 6, 5].map Int64.toInt).foldl History.observe .empty) ∧
      ([5, maxAge + 6, 5].foldl Received.observe .new).floor = 5 :=
  have hpos : ∀ id ∈ [5, maxAge + 6, 5], 0 < id.toInt :=
    List.forall_iff_forall_mem.mp ⟨by decide +kernel, by decide +kernel, by decide +kernel⟩
  ⟨hpos, (replay_refines_history _ hpos).1, by decide +kernel⟩

end Grammers
