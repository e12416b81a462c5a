import Mathlib.Order.Compare
import Mathlib.Data.List.Sort

namespace SortedSearch

variable {α κ : Type*}

/-- The halving loop of a slice search: `size` candidates remain from `base` on,
and every probe keeps the half that holds the last entry not above the target. -/
def searchLoop (above : Nat → Bool) : Nat → Nat → Nat → Nat
  | 0, base, _ => base
  | fuel + 1, base, size =>
    if size ≤ 1 then base
    else searchLoop above fuel (if above (base + size / 2) then base else base + size / 2)
      (size - size / 2)

/-- Search by comparison: `ok` is the index of a match, `error` the insertion point. -/
def binarySearchBy (xs : List α) (cmp : α → Ordering) : Except Nat Nat :=
  let base := searchLoop (fun i => (xs[i]?).any (fun x => cmp x == .gt)) xs.length 0 xs.length
  match (xs[base]?).map cmp with
  | none => .error 0
  | some .eq => .ok base
  | some .lt => .error (base + 1)
  | some .gt => .error base

def binarySearchByKey [LinearOrder κ] (key : α → κ) (xs : List α) (k : κ) : Except Nat Nat :=
  binarySearchBy xs (fun x => compare (key x) k)

/-- The index of the first entry that fails a predicate which holds on a prefix. -/
def partitionPoint (xs : List α) (p : α → Bool) : Nat :=
  match binarySearchBy xs (fun x => if p x then .lt else .gt) with
  | .ok i => i
  | .error i => i

theorem searchLoop_eq {above : Nat → Bool} (cut n : Nat)
    (h : ∀ i, i < n → (above i = true ↔ cut ≤ i)) (fuel base size : Nat)
    (hf : size ≤ fuel) (hs : 0 < size) (hn : base + size ≤ n)
    (hb : base = 0 ∨ base < cut) (hc : cut ≤ base + size) :
    searchLoop above fuel base size = cut - 1 := by
  induction fuel generalizing base size with
  | zero => omega
  | succ fuel ih =>
    rw [searchLoop]
    split
    next hone => omega
    next hmany =>
      have hmid := h (base + size / 2) (by omega)
      split
      next habove =>
        have hle := hmid.mp habove
        exact ih base (size - size / 2) (by omega) (by omega) (by omega) hb (by omega)
      next habove =>
        have hlt : ¬cut ≤ base + size / 2 := fun hle => habove (hmid.mpr hle)
        exact ih (base + size / 2) (size - size / 2) (by omega) (by omega) (by omega)
          (Or.inr (by omega)) (by omega)

theorem searchLoop_split {left right : List α} {cmp : α → Ordering}
    (hl : ∀ x ∈ left, cmp x ≠ .gt) (hr : ∀ x ∈ right, cmp x = .gt)
    (hne : 0 < (left ++ right).length) :
    searchLoop (fun i => ((left ++ right)[i]?).any (fun x => cmp x == .gt))
      (left ++ right).length 0 (left ++ right).length = left.length - 1 := by
  refine searchLoop_eq left.length (left ++ right).length ?_ _ 0 _ (Nat.le_refl _) hne (by simp)
    (Or.inl rfl) (by simp)
  · intro i hi
    by_cases hlt : i < left.length
    · have hx := hl left[i] (List.getElem_mem hlt)
      simp [List.getElem?_append_left hlt, List.getElem?_eq_getElem hlt, hx, Nat.not_le.mpr hlt]
    · have hi' : i - left.length < right.length := by
        rw [List.length_append] at hi
        omega
      have hx := hr right[i - left.length] (List.getElem_mem hi')
      simp [List.getElem?_append_right (Nat.not_lt.mp hlt), List.getElem?_eq_getElem hi', hx,
        Nat.not_lt.mp hlt]

/-- Without a match the search reports where the target belongs. -/
theorem binarySearchBy_error {left right : List α} {cmp : α → Ordering}
    (hl : ∀ x ∈ left, cmp x = .lt) (hr : ∀ x ∈ right, cmp x = .gt) :
    binarySearchBy (left ++ right) cmp = .error left.length := by
  rcases Nat.eq_zero_or_pos (left ++ right).length with hz | hne
  · have hnil := List.append_eq_nil_iff.mp (List.length_eq_zero_iff.mp hz)
    simp [binarySearchBy, hnil.1, hnil.2, searchLoop]
  · have hbase := searchLoop_split (fun x hx => by simp [hl x hx]) hr hne
    simp only [binarySearchBy, hbase]
    rcases Nat.eq_zero_or_pos left.length with hleft | hleft
    · have hnil := List.length_eq_zero_iff.mp hleft
      subst hnil
      cases right with
      | nil => simp at hne
      | cons x right => simp [hr x (by simp)]
    · have hlast : left.length - 1 < left.length := by omega
      have hx := hl left[left.length - 1] (List.getElem_mem hlast)
      rw [List.getElem?_append_left hlast, List.getElem?_eq_getElem hlast]
      simp only [Option.map_some, hx]
      rw [Nat.sub_add_cancel hleft]

/-- With exactly one match the search finds it. -/
theorem binarySearchBy_ok {left right : List α} {x : α} {cmp : α → Ordering}
    (hl : ∀ y ∈ left, cmp y = .lt) (hx : cmp x = .eq) (hr : ∀ y ∈ right, cmp y = .gt) :
    binarySearchBy (left ++ x :: right) cmp = .ok left.length := by
  have hsplit : left ++ x :: right = (left ++ [x]) ++ right := by simp
  have hleft : ∀ y ∈ left ++ [x], cmp y ≠ .gt := by
    intro y hy
    rcases List.mem_append.mp hy with hy | hy
    · simp [hl y hy]
    · simp [List.mem_singleton.mp hy, hx]
  have hlen : 0 < (left ++ [x] ++ right).length := by
    simp only [List.length_append, List.length_singleton]
    omega
  have hbase := searchLoop_split hleft hr hlen
  simp only [← hsplit, List.length_append, List.length_singleton, Nat.add_sub_cancel] at hbase
  simp only [binarySearchBy, List.length_append]
  rw [hbase]
  simp [hx]

theorem partitionPoint_eq {left right : List α} {p : α → Bool}
    (hl : ∀ x ∈ left, p x = true) (hr : ∀ x ∈ right, p x = false) :
    partitionPoint (left ++ right) p = left.length := by
  have hs : binarySearchBy (left ++ right) (fun x => if p x then .lt else .gt) =
      .error left.length :=
    binarySearchBy_error (fun x hx => by simp [hl x hx]) (fun x hx => by simp [hr x hx])
  simp only [partitionPoint, hs]

section Keyed

variable [LinearOrder κ] {key : α → κ} {xs : List α} {k : κ}

/-- Entries in strictly increasing key order. -/
def Sorted (key : α → κ) (xs : List α) : Prop := xs.Pairwise (fun a b => key a < key b)

theorem binarySearchByKey_ok {left right : List α} {x : α}
    (hs : Sorted key (left ++ x :: right)) :
    binarySearchByKey key (left ++ x :: right) (key x) = .ok left.length := by
  obtain ⟨_, hx, hlr⟩ := List.pairwise_append.mp hs
  refine binarySearchBy_ok ?_ (compare_eq_iff_eq.mpr rfl) ?_
  · exact fun y hy => compare_lt_iff_lt.mpr (hlr y hy x (by simp))
  · exact fun y hy => compare_gt_iff_gt.mpr ((List.pairwise_cons.mp hx).1 y hy)

theorem binarySearchByKey_error {left right : List α}
    (hl : ∀ x ∈ left, key x < k) (hr : ∀ x ∈ right, k < key x) :
    binarySearchByKey key (left ++ right) k = .error left.length :=
  binarySearchBy_error (fun x hx => compare_lt_iff_lt.mpr (hl x hx))
    (fun x hx => compare_gt_iff_gt.mpr (hr x hx))

/-- A sorted list splits at any key, with or without an entry of that key. -/
theorem Sorted.split (hs : Sorted key xs) (k : κ) :
    (∃ left x right, xs = left ++ x :: right ∧ key x = k) ∨
    (∃ left right, xs = left ++ right ∧ (∀ x ∈ left, key x < k) ∧ (∀ x ∈ right, k < key x)) := by
  induction xs with
  | nil => exact Or.inr ⟨[], [], rfl, by simp, by simp⟩
  | cons x xs ih =>
    obtain ⟨hx, hxs⟩ := List.pairwise_cons.mp hs
    rcases lt_trichotomy (key x) k with hlt | heq | hgt
    · rcases ih hxs with ⟨left, y, right, he, hk⟩ | ⟨left, right, he, hl, hr⟩
      · exact Or.inl ⟨x :: left, y, right, by simp [he], hk⟩
      · refine Or.inr ⟨x :: left, right, by simp [he], ?_, hr⟩
        intro y hy
        rcases List.mem_cons.mp hy with rfl | hy
        · exact hlt
        · exact hl y hy
    · exact Or.inl ⟨[], x, xs, rfl, heq⟩
    · refine Or.inr ⟨[], x :: xs, rfl, by simp, ?_⟩
      intro y hy
      rcases List.mem_cons.mp hy with rfl | hy
      · exact hgt
      · exact hgt.trans (hx y hy)

/-! A sorted list searched, changed and extended by key is a finite map. -/

def lookup (key : α → κ) (xs : List α) (k : κ) : Option α :=
  match binarySearchByKey key xs k with
  | .ok i => xs[i]?
  | .error _ => none

def modifyKey (key : α → κ) (xs : List α) (k : κ) (f : α → α) : List α :=
  match binarySearchByKey key xs k with
  | .ok i => xs.modify i f
  | .error _ => xs

def upsert (key : α → κ) (xs : List α) (x : α) : List α :=
  match binarySearchByKey key xs (key x) with
  | .ok i => xs.set i x
  | .error i => xs.insertIdx i x

def removeKey (key : α → κ) (xs : List α) (k : κ) : List α :=
  match binarySearchByKey key xs k with
  | .ok i => xs.eraseIdx i
  | .error _ => xs

theorem Sorted.eq_of_key (hs : Sorted key xs) {x y : α} (hx : x ∈ xs) (hy : y ∈ xs)
    (h : key x = key y) : x = y := by
  induction xs with
  | nil => simp at hx
  | cons z zs ih =>
    obtain ⟨hz, hzs⟩ := List.pairwise_cons.mp hs
    rcases List.mem_cons.mp hx with rfl | hx' <;> rcases List.mem_cons.mp hy with rfl | hy'
    · rfl
    · exact absurd h (hz y hy').ne
    · exact absurd h.symm (hz x hx').ne
    · exact ih hzs hx' hy'

theorem Sorted.key_ne {left right : List α} {x y : α} (hs : Sorted key (left ++ x :: right))
    (hy : y ∈ left ++ right) : key y ≠ key x := by
  obtain ⟨_, h2, h3⟩ := List.pairwise_append.mp hs
  rcases List.mem_append.mp hy with hy | hy
  · exact (h3 y hy x (by simp)).ne
  · exact ((List.pairwise_cons.mp h2).1 y hy).ne'

theorem lookup_eq_some_iff (hs : Sorted key xs) {x : α} :
    lookup key xs k = some x ↔ x ∈ xs ∧ key x = k := by
  rcases hs.split k with ⟨left, y, right, rfl, rfl⟩ | ⟨left, right, rfl, hl, hr⟩
  · simp only [lookup, binarySearchByKey_ok hs, List.getElem?_append_right le_rfl, Nat.sub_self,
      List.getElem?_cons_zero, Option.some.injEq]
    constructor
    · rintro rfl
      simp
    · rintro ⟨hx, he⟩
      exact hs.eq_of_key (by simp) hx he.symm
  · simp only [lookup, binarySearchByKey_error hl hr, reduceCtorEq, false_iff]
    rintro ⟨hx, he⟩
    rcases List.mem_append.mp hx with hx | hx
    · exact absurd he (hl x hx).ne
    · exact absurd he (hr x hx).ne'

theorem lookup_key (hs : Sorted key xs) {x : α} (h : lookup key xs k = some x) : key x = k :=
  ((lookup_eq_some_iff hs).mp h).2

theorem lookup_eq_none_iff (hs : Sorted key xs) :
    lookup key xs k = none ↔ ∀ x ∈ xs, key x ≠ k := by
  constructor
  · intro h x hx he
    rw [(lookup_eq_some_iff hs).mpr ⟨hx, he⟩] at h
    simp at h
  · intro h
    cases hl : lookup key xs k with
    | none => rfl
    | some x =>
      obtain ⟨hx, he⟩ := (lookup_eq_some_iff hs).mp hl
      exact absurd he (h x hx)

/-- A sorted list is determined by its lookups. -/
theorem Sorted.ext {ys : List α} (hs : Sorted key xs) (hy : Sorted key ys)
    (h : ∀ k, lookup key xs k = lookup key ys k) : xs = ys := by
  have hmem : ∀ x, x ∈ xs ↔ x ∈ ys := fun x => by
    constructor
    · intro hx
      exact ((lookup_eq_some_iff hy).mp ((h _) ▸ (lookup_eq_some_iff hs).mpr ⟨hx, rfl⟩)).1
    · intro hx
      exact ((lookup_eq_some_iff hs).mp ((h _).symm ▸ (lookup_eq_some_iff hy).mpr ⟨hx, rfl⟩)).1
  have hirr : Std.Irrefl (fun a b : α => key a < key b) := ⟨fun a => lt_irrefl (key a)⟩
  have hasymm : Std.Asymm (fun a b : α => key a < key b) := ⟨fun a b h => h.not_gt⟩
  exact List.Pairwise.eq_of_mem_iff hs hy (fun {a} => hmem a)

theorem isOk_binarySearchByKey (hs : Sorted key xs) :
    (binarySearchByKey key xs k).isOk = true ↔ ∃ x ∈ xs, key x = k := by
  rcases hs.split k with ⟨left, x, right, rfl, rfl⟩ | ⟨left, right, rfl, hl, hr⟩
  · rw [binarySearchByKey_ok hs]
    exact ⟨fun _ => ⟨x, by simp, rfl⟩, fun _ => rfl⟩
  · rw [binarySearchByKey_error hl hr]
    constructor
    · intro h
      simp [Except.isOk, Except.toBool] at h
    · rintro ⟨x, hx, rfl⟩
      rcases List.mem_append.mp hx with hx | hx
      · exact absurd (hl x hx) (lt_irrefl _)
      · exact absurd (hr x hx) (lt_irrefl _)

theorem Sorted.le_getLast (hs : Sorted key xs) {x last : α} (hx : x ∈ xs)
    (hl : xs.getLast? = some last) : key x ≤ key last := by
  obtain ⟨front, rfl⟩ := List.getLast?_eq_some_iff.mp hl
  rcases List.mem_append.mp hx with hx | hx
  · exact ((List.pairwise_append.mp hs).2.2 x hx last (by simp)).le
  · exact (List.mem_singleton.mp hx ▸ le_rfl)

theorem Sorted.head_le (hs : Sorted key xs) {x first : α} (hx : x ∈ xs)
    (hf : xs.head? = some first) : key first ≤ key x := by
  obtain ⟨rest, rfl⟩ := List.head?_eq_some_iff.mp hf
  rcases List.mem_cons.mp hx with rfl | hx
  · exact le_rfl
  · exact ((List.pairwise_cons.mp hs).1 x hx).le

/-- What is left after dropping from the front while a property holds that passes to
smaller keys is free of it. -/
theorem Sorted.not_of_mem_dropWhile (hs : Sorted key xs) {p : α → Bool}
    (hp : ∀ a ∈ xs, ∀ b ∈ xs, key a < key b → p b = true → p a = true) :
    ∀ x ∈ xs.dropWhile p, p x = false := by
  induction xs with
  | nil => simp
  | cons y ys ih =>
    obtain ⟨hy, hs'⟩ := List.pairwise_cons.mp hs
    rw [List.dropWhile_cons]
    split
    next => exact ih hs' fun a ha b hb => hp a (by simp [ha]) b (by simp [hb])
    next hpy =>
      intro x hx
      by_contra hne
      have hpx : p x = true := by simpa using hne
      rcases List.mem_cons.mp hx with rfl | hx
      · exact hpy hpx
      · exact hpy (hp y (by simp) x (by simp [hx]) (hy x hx) hpx)

theorem modify_length_append (left right : List α) (x : α) (f : α → α) :
    (left ++ x :: right).modify left.length f = left ++ f x :: right := by
  induction left with
  | nil => simp
  | cons y left ih => simpa using ih

theorem modifyKey_split {left right : List α} {x : α} (hs : Sorted key (left ++ x :: right))
    (f : α → α) : modifyKey key (left ++ x :: right) (key x) f = left ++ f x :: right := by
  simp [modifyKey, binarySearchByKey_ok hs, modify_length_append]

theorem Sorted.replace {left right : List α} {x y : α} (hs : Sorted key (left ++ x :: right))
    (h : key y = key x) : Sorted key (left ++ y :: right) := by
  obtain ⟨h1, h2, h3⟩ := List.pairwise_append.mp hs
  obtain ⟨h4, h5⟩ := List.pairwise_cons.mp h2
  refine List.pairwise_append.mpr ⟨h1, List.pairwise_cons.mpr ⟨fun z hz => h ▸ h4 z hz, h5⟩, ?_⟩
  intro z hz w hw
  rcases List.mem_cons.mp hw with rfl | hw
  · exact h ▸ h3 z hz x (by simp)
  · exact h3 z hz w (by simp [hw])

theorem mem_middle_of_ne {left right : List α} {x y : α} (h : y ≠ x) :
    y ∈ left ++ x :: right ↔ y ∈ left ++ right := by
  simp [h]

theorem insertIdx_length_append (left right : List α) (x : α) :
    (left ++ right).insertIdx left.length x = left ++ x :: right := by
  induction left with
  | nil => simp
  | cons y left ih => simpa using ih

theorem upsert_split {left right : List α} {x y : α} (hs : Sorted key (left ++ y :: right))
    (h : key y = key x) : upsert key (left ++ y :: right) x = left ++ x :: right := by
  simp [upsert, ← h, binarySearchByKey_ok hs]

theorem upsert_insert {left right : List α} {x : α} (hl : ∀ y ∈ left, key y < key x)
    (hr : ∀ y ∈ right, key x < key y) :
    upsert key (left ++ right) x = left ++ x :: right := by
  simp [upsert, binarySearchByKey_error hl hr, insertIdx_length_append]

theorem upsert_sorted (hs : Sorted key xs) (x : α) : Sorted key (upsert key xs x) := by
  rcases hs.split (key x) with ⟨left, y, right, rfl, hy⟩ | ⟨left, right, rfl, hl, hr⟩
  · rw [upsert_split hs hy]
    exact hs.replace hy.symm
  · obtain ⟨h1, h2, h3⟩ := List.pairwise_append.mp hs
    rw [upsert_insert hl hr]
    refine List.pairwise_append.mpr ⟨h1, List.pairwise_cons.mpr ⟨hr, h2⟩, ?_⟩
    intro z hz w hw
    rcases List.mem_cons.mp hw with rfl | hw
    · exact hl z hz
    · exact h3 z hz w hw

/-- Changing an entry in place is setting the changed entry. -/
theorem modifyKey_eq_upsert (hs : Sorted key xs) {x : α} (h : lookup key xs k = some x)
    {f : α → α} (hf : key (f x) = key x) : modifyKey key xs k f = upsert key xs (f x) := by
  rcases hs.split k with ⟨left, y, right, rfl, rfl⟩ | ⟨left, right, rfl, hl, hr⟩
  · obtain ⟨hx, hk⟩ := (lookup_eq_some_iff hs).mp h
    obtain rfl := hs.eq_of_key hx (by simp) hk
    rw [modifyKey_split hs, upsert_split hs hf.symm]
  · simp [lookup, binarySearchByKey_error hl hr] at h

theorem modifyKey_eq_self (hs : Sorted key xs) (h : lookup key xs k = none) (f : α → α) :
    modifyKey key xs k f = xs := by
  rcases hs.split k with ⟨left, y, right, rfl, rfl⟩ | ⟨left, right, rfl, hl, hr⟩
  · exact absurd rfl ((lookup_eq_none_iff hs).mp h y (by simp))
  · simp [modifyKey, binarySearchByKey_error hl hr]

theorem mem_upsert (hs : Sorted key xs) {x y : α} :
    y ∈ upsert key xs x ↔ y = x ∨ (y ∈ xs ∧ key y ≠ key x) := by
  rcases hs.split (key x) with ⟨left, z, right, rfl, hz⟩ | ⟨left, right, rfl, hl, hr⟩
  · rw [upsert_split hs hz]
    constructor
    · intro hy
      by_cases he : y = x
      · exact Or.inl he
      · rw [mem_middle_of_ne he] at hy
        have hk := hs.key_ne hy
        exact Or.inr ⟨(mem_middle_of_ne fun h => hk (by rw [h])).mpr hy, hz ▸ hk⟩
    · rintro (rfl | ⟨hy, hk⟩)
      · simp
      · have hyz : y ≠ z := fun he => hk (he ▸ hz)
        have hyx : y ≠ x := fun he => hk (by rw [he])
        rw [mem_middle_of_ne hyz] at hy
        rwa [mem_middle_of_ne hyx]
  · rw [upsert_insert hl hr]
    constructor
    · intro hy
      by_cases he : y = x
      · exact Or.inl he
      · rw [mem_middle_of_ne he] at hy
        rcases List.mem_append.mp hy with h | h
        · exact Or.inr ⟨hy, (hl y h).ne⟩
        · exact Or.inr ⟨hy, (hr y h).ne'⟩
    · rintro (rfl | ⟨hy, hk⟩)
      · simp
      · rwa [mem_middle_of_ne fun he => hk (by rw [he])]

theorem lookup_upsert (hs : Sorted key xs) (x : α) (k : κ) :
    lookup key (upsert key xs x) k = if k = key x then some x else lookup key xs k := by
  have hs' := upsert_sorted hs x
  split
  next hk => exact (lookup_eq_some_iff hs').mpr ⟨(mem_upsert hs).mpr (Or.inl rfl), hk.symm⟩
  next hk =>
    apply Option.ext
    intro y
    rw [lookup_eq_some_iff hs', lookup_eq_some_iff hs, mem_upsert hs]
    constructor
    · rintro ⟨rfl | ⟨hy, _⟩, rfl⟩
      · exact absurd rfl hk
      · exact ⟨hy, rfl⟩
    · rintro ⟨hy, rfl⟩
      exact ⟨Or.inr ⟨hy, hk⟩, rfl⟩

theorem upsert_upsert (hs : Sorted key xs) {x y : α} (h : key x = key y) :
    upsert key (upsert key xs x) y = upsert key xs y := by
  have hx := upsert_sorted hs x
  apply (upsert_sorted hx y).ext (upsert_sorted hs y)
  intro k
  rw [lookup_upsert hx, lookup_upsert hs, lookup_upsert hs, h]
  split <;> rfl

theorem map_sorted (hs : Sorted key xs) {f : α → α} (hf : ∀ x ∈ xs, key (f x) = key x) :
    Sorted key (xs.map f) := by
  refine List.pairwise_map.mpr (List.Pairwise.imp_of_mem ?_ hs)
  intro a b ha hb hlt
  rwa [hf a ha, hf b hb]

theorem lookup_map (hs : Sorted key xs) {f : α → α} (hf : ∀ x ∈ xs, key (f x) = key x) (k : κ) :
    lookup key (xs.map f) k = (lookup key xs k).map f := by
  apply Option.ext
  intro y
  simp only [lookup_eq_some_iff (map_sorted hs hf), List.mem_map, Option.map_eq_some_iff,
    lookup_eq_some_iff hs]
  constructor
  · rintro ⟨⟨x, hx, rfl⟩, hk⟩
    exact ⟨x, ⟨hx, (hf x hx).symm.trans hk⟩, rfl⟩
  · rintro ⟨x, ⟨hx, hk⟩, rfl⟩
    exact ⟨⟨x, hx, rfl⟩, (hf x hx).trans hk⟩

theorem Sorted.nodup_keys (hs : Sorted key xs) : (xs.map key).Nodup :=
  List.pairwise_map.mpr (List.Pairwise.imp ne_of_lt hs)

theorem removeKey_sublist (key : α → κ) (xs : List α) (k : κ) :
    (removeKey key xs k).Sublist xs := by
  unfold removeKey
  split
  next => exact List.eraseIdx_sublist xs _
  next => exact List.Sublist.refl xs

theorem removeKey_sorted (hs : Sorted key xs) (k : κ) : Sorted key (removeKey key xs k) :=
  List.Pairwise.sublist (removeKey_sublist key xs k) hs

theorem lookup_removeKey (hs : Sorted key xs) (k k' : κ) :
    lookup key (removeKey key xs k) k' = if k' = k then none else lookup key xs k' := by
  have hs' := removeKey_sorted hs k
  rcases hs.split k with ⟨left, y, right, rfl, rfl⟩ | ⟨left, right, rfl, hl, hr⟩
  · have herase : removeKey key (left ++ y :: right) (key y) = left ++ right := by
      simp [removeKey, binarySearchByKey_ok hs, List.eraseIdx_append_of_length_le]
    rw [herase] at hs' ⊢
    split
    next hk =>
      subst hk
      exact (lookup_eq_none_iff hs').mpr fun w hw => hs.key_ne hw
    next hk =>
      apply Option.ext
      intro z
      rw [lookup_eq_some_iff hs', lookup_eq_some_iff hs]
      apply and_congr_left
      rintro rfl
      rw [mem_middle_of_ne fun he => hk (by rw [he])]
  · simp only [removeKey, binarySearchByKey_error hl hr]
    split
    next hk =>
      subst hk
      simp [lookup, binarySearchByKey_error hl hr]
    next => rfl

end Keyed

end SortedSearch
