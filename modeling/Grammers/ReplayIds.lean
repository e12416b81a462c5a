import Grammers.SortedSearch
import Grammers.BigEndian

namespace Grammers

open SortedSearch BigEndian

/-- How many server messages a session remembers. -/
def replayCapacity : Nat := 1024

/-- How far behind the newest message, in the unit of message identifiers, one is too old. -/
def maxAge : Int64 := (300 : Int64) <<< 32

def offsetLimit : UInt64 := (1 : UInt64) <<< 48

/-- An offset as it is stored, in six bytes. -/
def Offset : Type := { bytes : List UInt8 // bytes.length = 6 }
  deriving DecidableEq

/-- Stored offsets compare byte by byte. -/
def Offset.order (o : Offset) : List Nat := BigEndian.order o.val

def pack (offset : UInt64) : Offset := ⟨(toBytes 8 offset.toNat).drop 2, by simp⟩

def unpack (o : Offset) : UInt64 := UInt64.ofNat (ofBytes (0 :: 0 :: o.val))

def saturatingSub64 (a b : Int64) : Int64 := Int64.ofIntClamp (a.toInt - b.toInt)

/-- Exact, sorted identifiers of server messages, as offsets from a base. -/
structure ReplayIds where
  base : Int64
  offsets : List Offset
  deriving DecidableEq

namespace ReplayIds

def new : ReplayIds where
  base := 0
  offsets := []

def id (r : ReplayIds) (offset : Offset) : Int64 := r.base + (unpack offset).toInt64

def offset (r : ReplayIds) (id : Int64) : Option Offset :=
  let offset := (id - r.base).toUInt64
  if offset < offsetLimit then some (pack offset) else none

def contains (r : ReplayIds) (id : Int64) : Bool :=
  (r.offset id).any fun offset =>
    r.offsets.getLast?.any (fun last => decide (offset.order ≤ last.order)) &&
      (binarySearchByKey Offset.order r.offsets offset.order).isOk

/-- Drop the oldest identifiers up to the first one allowed, and report the last dropped. -/
def evictOld (r : ReplayIds) (oldestAllowed : Int64) :
    List Offset → Option Int64 → List Offset × Option Int64
  | [], evicted => ([], evicted)
  | first :: offsets, evicted =>
    if r.id first < oldestAllowed then r.evictOld oldestAllowed offsets (some (r.id first))
    else (first :: offsets, evicted)

/-- Store the same identifiers as offsets from another base. -/
def rebase (r : ReplayIds) (base : Int64) : ReplayIds where
  base := base
  offsets := r.offsets.map fun slot => pack (r.id slot - base).toUInt64

def insertOffset (r : ReplayIds) (offset : Offset) : ReplayIds :=
  if r.offsets.getLast?.all (fun last => decide (last.order < offset.order)) then
    { r with offsets := r.offsets ++ [offset] }
  else
    match binarySearchByKey Offset.order r.offsets offset.order with
    | .error index => { r with offsets := r.offsets.insertIdx index offset }
    | .ok _ => r

/-- The newest identifier, the new one included. -/
def newest (r : ReplayIds) (id : Int64) : Int64 :=
  (r.offsets.getLast?.map r.id).elim id fun previous => max previous id

/-- What is left without the identifiers that are too old, and without the first of a full
rest, and the last identifier dropped. -/
def evict (r : ReplayIds) (oldestAllowed : Int64) : List Offset × Option Int64 :=
  let (offsets, evicted) := r.evictOld oldestAllowed r.offsets none
  if offsets.length = replayCapacity then (offsets.tail, offsets.head?.map r.id)
  else (offsets, evicted)

/-- Store an identifier at its offset, or at its offset from a base that everything retained
is above. -/
def store (r : ReplayIds) (id oldestAllowed : Int64) : ReplayIds :=
  match (r.offset id).filter fun _ => !r.offsets.isEmpty with
  | some offset => r.insertOffset offset
  | none => (r.rebase oldestAllowed).insertOffset (pack (id - oldestAllowed).toUInt64)

/-- Record a new identifier, and report the highest one that left the history, which may
be the new one itself. -/
def remember (r : ReplayIds) (id : Int64) : ReplayIds × Option Int64 :=
  let oldestAllowed := saturatingSub64 (r.newest id) maxAge
  if id < oldestAllowed ∨ (r.offsets.length = replayCapacity ∧
      r.offsets.head?.any fun first => decide (id < r.id first)) then (r, some id)
  else
    let (offsets, evicted) := r.evict oldestAllowed
    (store { r with offsets := offsets } id oldestAllowed, evicted)

end ReplayIds

theorem toInt_maxAge : maxAge.toInt = 300 * 2 ^ 32 := by decide

theorem toNat_offsetLimit : offsetLimit.toNat = 2 ^ 48 := by decide

/-! Packing loses nothing of an offset within the limit. -/

def Offset.number (o : Offset) : Nat := ofBytes o.val

theorem Offset.number_lt (o : Offset) : o.number < 2 ^ 48 := by
  have := ofBytes_lt o.val
  rw [o.property] at this
  exact this.trans_eq (by norm_num)

theorem Offset.ext_number {a b : Offset} (h : a.number = b.number) : a = b :=
  Subtype.ext (ofBytes_injective (a.property.trans b.property.symm) h)

theorem Offset.order_lt_iff {a b : Offset} : a.order < b.order ↔ a.number < b.number :=
  BigEndian.order_lt_iff (a.property.trans b.property.symm)

theorem Offset.order_injective {a b : Offset} (h : a.order = b.order) : a = b := by
  refine Offset.ext_number (le_antisymm (not_lt.mp ?_) (not_lt.mp ?_))
  · exact fun hlt => (Offset.order_lt_iff.mpr hlt).ne' h
  · exact fun hlt => (Offset.order_lt_iff.mpr hlt).ne h

theorem toNat_unpack (o : Offset) : (unpack o).toNat = o.number := by
  have hlt := o.number_lt
  unfold unpack
  rw [ofBytes_zero_cons, ofBytes_zero_cons, UInt64.toNat_ofNat']
  exact Nat.mod_eq_of_lt (hlt.trans (by norm_num))

theorem number_pack {offset : UInt64} (h : offset < offsetLimit) :
    (pack offset).number = offset.toNat := by
  have hlt : offset.toNat < 256 ^ 6 := by
    have := UInt64.lt_iff_toNat_lt.mp h
    rw [toNat_offsetLimit] at this
    exact this.trans_eq (by norm_num)
  show ofBytes ((toBytes (2 + 6) offset.toNat).drop 2) = offset.toNat
  rw [drop_toBytes, ofBytes_toBytes, Nat.mod_eq_of_lt hlt]

theorem unpack_pack {offset : UInt64} (h : offset < offsetLimit) : unpack (pack offset) = offset := by
  rw [← UInt64.toNat_inj, toNat_unpack, number_pack h]

theorem unpack_lt (o : Offset) : unpack o < offsetLimit := by
  rw [UInt64.lt_iff_toNat_lt, toNat_unpack, toNat_offsetLimit]
  exact o.number_lt

theorem pack_unpack (o : Offset) : pack (unpack o) = o := by
  refine Offset.ext_number ?_
  rw [number_pack (unpack_lt o), toNat_unpack]

namespace ReplayIds

variable {r : ReplayIds} {id : Int64} {o : Offset}

/-- The offset of an identifier, where there is one, is what stands for it. -/
theorem offset_eq_some_iff : r.offset id = some o ↔ r.id o = id := by
  unfold ReplayIds.offset ReplayIds.id
  constructor
  · intro h
    simp only at h
    split at h
    next hlt =>
      obtain rfl := Option.some.inj h
      rw [unpack_pack hlt, Int64.toInt64_toUInt64, Int64.add_comm, Int64.sub_add_cancel]
    next => simp at h
  · rintro rfl
    have hsub : r.base + (unpack o).toInt64 - r.base = (unpack o).toInt64 := by
      rw [Int64.add_comm, Int64.add_sub_cancel]
    simp only [hsub, UInt64.toUInt64_toInt64, if_pos (unpack_lt o), pack_unpack]

/-- The identifiers retained, in order. -/
def values (r : ReplayIds) : List Int64 := r.offsets.map r.id

theorem mem_values_iff : id ∈ r.values ↔ ∃ o ∈ r.offsets, r.offset id = some o := by
  simp only [values, List.mem_map, offset_eq_some_iff]

/-- The search finds exactly the identifiers retained, also across the wrapping base. -/
theorem contains_iff (hs : Sorted Offset.order r.offsets) : r.contains id = true ↔ id ∈ r.values := by
  rw [mem_values_iff, contains]
  cases ho : r.offset id with
  | none => simp
  | some o =>
    simp only [Option.any_some, Bool.and_eq_true, Option.some.injEq, exists_eq_right',
      isOk_binarySearchByKey hs]
    constructor
    · rintro ⟨_, x, hx, hkey⟩
      exact Offset.order_injective hkey ▸ hx
    · intro hm
      refine ⟨?_, o, hm, rfl⟩
      cases hl : r.offsets.getLast? with
      | none => simp [List.getLast?_eq_none_iff.mp hl] at hm
      | some last => simpa using hs.le_getLast hm hl

/-- Offsets in order, none of which wraps. -/
structure Fits (r : ReplayIds) : Prop where
  sorted : Sorted Offset.order r.offsets
  fits : ∀ o ∈ r.offsets, 0 < r.base.toInt + o.number ∧ r.base.toInt + o.number < 2 ^ 63

/-- The shape a history keeps: not too many identifiers, none too old for the newest, which
is far enough above the base. -/
structure Ok (r : ReplayIds) : Prop extends r.Fits where
  short : r.offsets.length ≤ replayCapacity
  recent : ∀ x ∈ r.values, ∀ y ∈ r.values, y.toInt ≤ x.toInt + maxAge.toInt
  based : r.values ≠ [] → ∃ x ∈ r.values, r.base.toInt + maxAge.toInt ≤ x.toInt

theorem toInt_unpack (o : Offset) : (unpack o).toInt64.toInt = o.number := by
  have hlt := o.number_lt
  have hnat : (unpack o).toBitVec.toNat = o.number := toNat_unpack o
  rw [← Int64.toInt_toBitVec, UInt64.toBitVec_toInt64, BitVec.toInt_eq_toNat_of_lt (by omega), hnat]

/-- Where the sum does not wrap, an offset stands for its distance from the base. -/
theorem toInt_id_of_fits (h1 : 0 < r.base.toInt + o.number) (h2 : r.base.toInt + o.number < 2 ^ 63) :
    (r.id o).toInt = r.base.toInt + o.number := by
  unfold ReplayIds.id
  rw [Int64.toInt_add, toInt_unpack]
  exact Int.bmod_eq_of_le_mul_two (by omega) (by omega)

theorem Fits.toInt_id (h : r.Fits) (ho : o ∈ r.offsets) : (r.id o).toInt = r.base.toInt + o.number :=
  toInt_id_of_fits (h.fits o ho).1 (h.fits o ho).2

/-- The number stored for an identifier at or above a base. -/
theorem toNat_sub_base {base : Int64} (h : base.toInt ≤ id.toInt) :
    ((id - base).toUInt64.toNat : Int) = id.toInt - base.toInt := by
  have h1 := id.toInt_lt
  have h2 := base.le_toInt
  have hbmod : Int.bmod ((id - base).toUInt64.toNat) (2 ^ 64) =
      Int.bmod (id.toInt - base.toInt) (2 ^ 64) :=
    (BitVec.toInt_eq_toNat_bmod (id - base).toBitVec).symm.trans (Int64.toInt_sub id base)
  have hmod := congrArg (· % ((2 ^ 64 : Nat) : Int)) hbmod
  simp only [Int.bmod_emod] at hmod
  have hlt := (id - base).toUInt64.toNat_lt
  rw [Int.emod_eq_of_lt (by omega) (by omega), Int.emod_eq_of_lt (by omega) (by omega)] at hmod
  exact hmod

/-- An identifier within reach of a base is stored as its distance from it. -/
theorem number_pack_sub {base : Int64} (h1 : base.toInt ≤ id.toInt) (h2 : id.toInt - base.toInt < 2 ^ 48) :
    (id - base).toUInt64 < offsetLimit ∧ base.toInt + (pack (id - base).toUInt64).number = id.toInt := by
  have hnat := toNat_sub_base h1
  have hlt : (id - base).toUInt64 < offsetLimit := by
    rw [UInt64.lt_iff_toNat_lt, toNat_offsetLimit]
    omega
  refine ⟨hlt, ?_⟩
  rw [number_pack hlt]
  omega

theorem toInt_max (a b : Int64) : (max a b).toInt = max a.toInt b.toInt := by
  show (if a ≤ b then b else a).toInt = _
  split
  next h => exact (max_eq_right (Int64.le_iff_toInt_le.mp h)).symm
  next h => exact (max_eq_left (Int64.lt_iff_toInt_lt.mp (Int64.not_le.mp h)).le).symm

theorem toInt_saturatingSub64 {newest : Int64} (h : 0 < newest.toInt) :
    (saturatingSub64 newest maxAge).toInt = newest.toInt - maxAge.toInt := by
  have h1 := newest.toInt_lt
  have h2 := toInt_maxAge
  refine Int64.toInt_ofIntClamp ?_ ?_
  · have : Int64.minValue.toInt = -2 ^ 63 := by decide
    omega
  · have : Int64.maxValue.toInt = 2 ^ 63 - 1 := by decide
    omega

theorem evictOld_eq (r : ReplayIds) (oldest : Int64) (os : List Offset) (evicted : Option Int64) :
    r.evictOld oldest os evicted = (os.dropWhile fun o => decide (r.id o < oldest),
      ((os.takeWhile fun o => decide (r.id o < oldest)).getLast?.map r.id).or evicted) := by
  induction os generalizing evicted with
  | nil => simp [evictOld]
  | cons o os ih =>
    rw [evictOld]
    split
    next h =>
      rw [ih]
      simp only [List.dropWhile_cons, List.takeWhile_cons, h, decide_true, if_true]
      refine Prod.ext rfl ?_
      cases hl : (os.takeWhile fun o => decide (r.id o < oldest)).getLast? with
      | none => simp [List.getLast?_eq_none_iff.mp hl]
      | some last => simp [List.getLast?_cons, hl]
    next h => simp [h]

theorem Fits.id_lt_iff (h : r.Fits) {o' : Offset} (ho : o ∈ r.offsets) (ho' : o' ∈ r.offsets) :
    (r.id o).toInt < (r.id o').toInt ↔ o.order < o'.order := by
  rw [h.toInt_id ho, h.toInt_id ho', Offset.order_lt_iff]
  omega

theorem Fits.sublist (h : r.Fits) {os : List Offset} (hs : os.Sublist r.offsets) :
    Fits { r with offsets := os } :=
  ⟨h.sorted.sublist hs, fun o ho => h.fits o (hs.subset ho)⟩

/-- Moving the base keeps every identifier it stays below. -/
theorem Fits.rebase (h : r.Fits) {base : Int64}
    (hb : ∀ x ∈ r.values, base.toInt ≤ x.toInt ∧ x.toInt - base.toInt < 2 ^ 48) :
    (r.rebase base).Fits ∧ (r.rebase base).values = r.values := by
  have hslot : ∀ o ∈ r.offsets, base.toInt + (pack (r.id o - base).toUInt64).number =
      (r.id o).toInt := by
    intro o ho
    obtain ⟨h1, h2⟩ := hb _ (List.mem_map_of_mem ho)
    exact (number_pack_sub h1 h2).2
  refine ⟨⟨?_, ?_⟩, ?_⟩
  · refine List.pairwise_map.mpr (List.Pairwise.imp_of_mem ?_ h.sorted)
    intro o o' ho ho' hlt
    have hid := (h.id_lt_iff ho ho').mpr hlt
    rw [Offset.order_lt_iff]
    have := hslot o ho
    have := hslot o' ho'
    omega
  · intro o' ho'
    obtain ⟨o, ho, rfl⟩ := List.mem_map.mp ho'
    have := h.fits o ho
    have := h.toInt_id ho
    show 0 < base.toInt + _ ∧ base.toInt + _ < _
    rw [hslot o ho]
    omega
  · unfold values ReplayIds.rebase
    rw [List.map_map]
    refine List.map_congr_left fun o ho => ?_
    obtain ⟨h1, h2⟩ := hb _ (List.mem_map_of_mem ho)
    obtain ⟨hlt, _⟩ := number_pack_sub h1 h2
    refine offset_eq_some_iff.mp ?_
    simp only [ReplayIds.offset, if_pos hlt]

theorem getLast_all_iff (hs : Sorted Offset.order r.offsets) :
    r.offsets.getLast?.all (fun last => decide (last.order < o.order)) = true ↔
      ∀ o' ∈ r.offsets, o'.order < o.order := by
  cases hl : r.offsets.getLast? with
  | none => simp [List.getLast?_eq_none_iff.mp hl]
  | some last =>
    simp only [Option.all_some, decide_eq_true_eq]
    exact ⟨fun hlt o' ho' => (hs.le_getLast ho' hl).trans_lt hlt,
      fun h => h last (List.mem_of_getLast? hl)⟩

/-- A new offset goes to its place in the order. -/
theorem insertOffset_spec (hs : Sorted Offset.order r.offsets) (hn : o ∉ r.offsets) :
    ∃ left right, r.offsets = left ++ right ∧ (∀ x ∈ left, x.order < o.order) ∧
      (∀ x ∈ right, o.order < x.order) ∧
      r.insertOffset o = { r with offsets := left ++ o :: right } := by
  unfold insertOffset
  split
  next hall =>
    exact ⟨r.offsets, [], by simp, (getLast_all_iff hs).mp hall, by simp, by simp⟩
  next =>
    rcases hs.split o.order with ⟨left, x, right, hsplit, hx⟩ | ⟨left, right, hsplit, hl, hr⟩
    · refine absurd ?_ hn
      rw [hsplit, ← Offset.order_injective hx]
      simp
    · refine ⟨left, right, hsplit, hl, hr, ?_⟩
      simp only [hsplit, binarySearchByKey_error hl hr, insertIdx_length_append]

theorem Fits.insertOffset (h : r.Fits) (ho : r.base.toInt + o.number = id.toInt) (hpos : 0 < id.toInt)
    (hnew : id ∉ r.values) : (r.insertOffset o).Fits ∧
      (∀ x, x ∈ (r.insertOffset o).values ↔ x = id ∨ x ∈ r.values) ∧
      (r.insertOffset o).offsets.length = r.offsets.length + 1 ∧ (r.insertOffset o).base = r.base := by
  have hid : r.id o = id := by
    have := id.toInt_lt
    rw [← Int64.toInt_inj, toInt_id_of_fits (by omega) (by omega), ho]
  have hn : o ∉ r.offsets := fun hm => hnew (hid ▸ List.mem_map_of_mem hm)
  obtain ⟨left, right, hsplit, hl, hr, heq⟩ := insertOffset_spec h.sorted hn
  have hmem : ∀ x, x ∈ left ++ o :: right ↔ x = o ∨ x ∈ r.offsets := by
    intro x
    rw [hsplit]
    simp only [List.mem_append, List.mem_cons]
    tauto
  rw [heq]
  refine ⟨⟨?_, ?_⟩, ?_, ?_, rfl⟩
  · have hs := h.sorted
    rw [hsplit] at hs
    obtain ⟨h1, h2, h3⟩ := List.pairwise_append.mp hs
    refine List.pairwise_append.mpr ⟨h1, List.pairwise_cons.mpr ⟨hr, h2⟩, ?_⟩
    intro x hx y hy
    rcases List.mem_cons.mp hy with rfl | hy
    · exact hl x hx
    · exact h3 x hx y hy
  · intro x hx
    rcases (hmem x).mp hx with rfl | hx
    · have := id.toInt_lt
      show 0 < r.base.toInt + _ ∧ r.base.toInt + _ < _
      omega
    · exact h.fits x hx
  · intro x
    simp only [values, List.mem_map, hmem]
    constructor
    · rintro ⟨y, rfl | hy, rfl⟩
      · exact Or.inl hid
      · exact Or.inr ⟨y, hy, rfl⟩
    · rintro (rfl | ⟨y, hy, rfl⟩)
      · exact ⟨o, Or.inl rfl, hid⟩
      · exact ⟨y, Or.inr hy, rfl⟩
  · rw [hsplit]
    simp only [List.length_append, List.length_cons]
    omega

end ReplayIds

end Grammers
