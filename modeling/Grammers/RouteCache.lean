import Mathlib.Data.List.Basic

namespace Grammers

/-- The routes of a sender pool: a connection is told by the index of its task. -/
structure RouteCache where
  entries : List (Int32 × Nat)
  disconnecting : List (Int32 × Nat)
  stopping : Bool
  parked : Bool
  deriving DecidableEq

namespace RouteCache

variable {c : RouteCache} {dcId other : Int32} {tx : Nat} {counts : List (Int32 × Nat)}
  {f : Nat → Nat}

def init (parked : Bool) : RouteCache := ⟨[], [], false, parked⟩

def publish (c : RouteCache) (dcId : Int32) (tx : Nat) : RouteCache :=
  if !c.stopping && !c.disconnecting.any (fun d => d.1 = dcId) then
    { c with entries := c.entries.filter (fun e => e.1 ≠ dcId) ++ [(dcId, tx)] }
  else c

/-- Change the count of a datacenter where it is first found. -/
def adjust (f : Nat → Nat) (dcId : Int32) : List (Int32 × Nat) → List (Int32 × Nat)
  | [] => []
  | (id, count) :: rest =>
    if id = dcId then (id, f count) :: rest else (id, count) :: adjust f dcId rest

def beginDisconnect (c : RouteCache) (dcId : Int32) : RouteCache :=
  { c with
    entries := c.entries.filter fun e => e.1 ≠ dcId
    disconnecting :=
      if c.disconnecting.any (fun d => d.1 = dcId) then adjust (· + 1) dcId c.disconnecting
      else c.disconnecting ++ [(dcId, 1)] }

/-- A count that is there is not zero, so that it can be taken one from. -/
def finishDisconnect (c : RouteCache) (dcId : Int32) : RouteCache :=
  { c with
    entries := c.entries.filter fun e => e.1 ≠ dcId
    disconnecting := (adjust (· - 1) dcId c.disconnecting).filter fun d => d.2 ≠ 0 }

def close (c : RouteCache) : RouteCache := { c with stopping := true, entries := [] }

def find (c : RouteCache) (dcId : Int32) : Option Nat :=
  (c.entries.find? fun e => e.1 = dcId).map Prod.snd

/-- How many disconnects of a datacenter have begun and not finished. -/
def total (dcId : Int32) : List (Int32 × Nat) → Nat
  | [] => 0
  | (id, count) :: rest => (if id = dcId then count else 0) + total dcId rest

/-- No datacenter is listed without a disconnect; one that is listed has no route, and none has once
the pool is stopping. -/
structure Wf (c : RouteCache) : Prop where
  counts : ∀ d ∈ c.disconnecting, d.2 ≠ 0
  blocked : ∀ e ∈ c.entries, total e.1 c.disconnecting = 0
  stopped : c.stopping = true → c.entries = []

theorem total_append (more : List (Int32 × Nat)) :
    total dcId (counts ++ more) = total dcId counts + total dcId more := by
  induction counts with
  | nil => simp [total]
  | cons d counts ih =>
    rw [List.cons_append, total, total, ih, Nat.add_assoc]

theorem total_filter : total dcId (counts.filter fun d => d.2 ≠ 0) = total dcId counts := by
  induction counts with
  | nil => rfl
  | cons d counts ih =>
    obtain ⟨id, count⟩ := d
    by_cases hzero : count = 0
    · rw [List.filter_cons_of_neg (by simpa using hzero), ih, total, hzero, ite_self, Nat.zero_add]
    · rw [List.filter_cons_of_pos (by simpa using hzero), total, total, ih]

theorem any_iff (h : ∀ d ∈ counts, d.2 ≠ 0) :
    counts.any (fun d => d.1 = dcId) = true ↔ total dcId counts ≠ 0 := by
  induction counts with
  | nil => simp [total]
  | cons d counts ih =>
    obtain ⟨hd, hcounts⟩ := List.forall_mem_cons.mp h
    rw [List.any_cons, Bool.or_eq_true, ih hcounts, total]
    by_cases hid : d.1 = dcId
    · simp only [hid, decide_true, true_or, true_iff, if_true]
      omega
    · simp [hid]

theorem total_adjust_other (hne : other ≠ dcId) :
    total other (adjust f dcId counts) = total other counts := by
  induction counts with
  | nil => rfl
  | cons d counts ih =>
    rw [adjust]
    split
    next hid => simp [total, hid, Ne.symm hne]
    next => rw [total, total, ih]

theorem total_adjust (h : counts.any (fun d => d.1 = dcId) = true) :
    ∃ count rest, total dcId counts = count + rest ∧ (∃ d ∈ counts, d.2 = count) ∧
      total dcId (adjust f dcId counts) = f count + rest := by
  induction counts with
  | nil => simp at h
  | cons d counts ih =>
    rw [adjust]
    split
    next hid =>
      exact ⟨d.2, total dcId counts, by rw [total, if_pos hid], ⟨d, List.mem_cons_self, rfl⟩,
        by rw [total, if_pos hid]⟩
    next hid =>
      rw [List.any_cons, decide_eq_false hid, Bool.false_or] at h
      obtain ⟨count, rest, htotal, ⟨d', hd', hcount⟩, hadjust⟩ := ih h
      exact ⟨count, rest, by rw [total, if_neg hid, Nat.zero_add, htotal],
        ⟨d', List.mem_cons_of_mem _ hd', hcount⟩,
        by rw [total, if_neg hid, Nat.zero_add, hadjust]⟩

theorem adjust_of_not_any (h : ¬counts.any (fun d => d.1 = dcId) = true) :
    adjust f dcId counts = counts := by
  induction counts with
  | nil => rfl
  | cons d counts ih =>
    rw [List.any_cons, Bool.or_eq_true, not_or, decide_eq_true_eq] at h
    rw [adjust, if_neg h.1, ih h.2]

theorem mem_adjust_succ (h : ∀ d ∈ counts, d.2 ≠ 0) :
    ∀ d ∈ adjust (· + 1) dcId counts, d.2 ≠ 0 := by
  induction counts with
  | nil => exact h
  | cons d counts ih =>
    obtain ⟨hd, hcounts⟩ := List.forall_mem_cons.mp h
    rw [adjust]
    split
    next => exact List.forall_mem_cons.mpr ⟨Nat.succ_ne_zero _, hcounts⟩
    next => exact List.forall_mem_cons.mpr ⟨hd, ih hcounts⟩

theorem total_beginDisconnect : total other (c.beginDisconnect dcId).disconnecting =
    total other c.disconnecting + if other = dcId then 1 else 0 := by
  unfold beginDisconnect
  simp only
  split
  next hany =>
    split
    next heq =>
      subst heq
      obtain ⟨count, rest, htotal, -, hadjust⟩ := total_adjust (f := (· + 1)) hany
      omega
    next hne => rw [total_adjust_other hne, Nat.add_zero]
  next hany =>
    rw [total_append, total, total, Nat.add_zero]
    split
    next heq => rw [if_pos heq.symm]
    next hne => rw [if_neg (Ne.symm hne)]

theorem total_finishDisconnect (hc : c.Wf) : total other (c.finishDisconnect dcId).disconnecting =
    total other c.disconnecting - if other = dcId then 1 else 0 := by
  unfold finishDisconnect
  simp only
  rw [total_filter]
  split
  next heq =>
    subst heq
    by_cases hany : c.disconnecting.any (fun d => d.1 = other) = true
    · obtain ⟨count, rest, htotal, ⟨d, hd, hcount⟩, hadjust⟩ := total_adjust (f := (· - 1)) hany
      have := hc.counts d hd
      omega
    · have hzero := mt (any_iff hc.counts).mpr hany
      rw [adjust_of_not_any hany]
      omega
  next hne => rw [total_adjust_other hne, Nat.sub_zero]

theorem Wf.of_subset {c' : RouteCache} (hc : c.Wf) (hsub : ∀ e ∈ c'.entries, e ∈ c.entries)
    (hcounts : ∀ d ∈ c'.disconnecting, d.2 ≠ 0)
    (htotal : ∀ e ∈ c'.entries, total e.1 c'.disconnecting ≤ total e.1 c.disconnecting)
    (hstop : c'.stopping = true → c.stopping = true ∨ c'.entries = []) : c'.Wf where
  counts := hcounts
  blocked e he := Nat.le_zero.mp (hc.blocked e (hsub e he) ▸ htotal e he)
  stopped h := by
    rcases hstop h with hs | hs
    · exact List.eq_nil_iff_forall_not_mem.mpr fun e he => by
        have := hsub e he
        rw [hc.stopped hs] at this
        cases this
    · exact hs

theorem Wf.beginDisconnect (hc : c.Wf) (dcId : Int32) : (c.beginDisconnect dcId).Wf := by
  refine hc.of_subset (fun e he => (List.mem_filter.mp he).1) ?_ (fun e he => ?_) fun h => Or.inl h
  · unfold RouteCache.beginDisconnect
    simp only
    split
    next => exact mem_adjust_succ hc.counts
    next => exact List.forall_mem_append.mpr ⟨hc.counts, by simp⟩
  · have hne := (List.mem_filter.mp he).2
    exact Nat.le_of_eq (by rw [total_beginDisconnect, if_neg (by simpa using hne), Nat.add_zero])

theorem Wf.finishDisconnect (hc : c.Wf) (dcId : Int32) : (c.finishDisconnect dcId).Wf := by
  refine hc.of_subset (fun e he => (List.mem_filter.mp he).1) (fun d hd => ?_) (fun e he => ?_)
    fun h => Or.inl h
  · simpa using (List.mem_filter.mp hd).2
  · rw [total_finishDisconnect hc]
    exact Nat.sub_le _ _

theorem Wf.close (hc : c.Wf) : c.close.Wf :=
  hc.of_subset (fun _ he => absurd he List.not_mem_nil) hc.counts
    (fun _ he => absurd he List.not_mem_nil) fun _ => Or.inr rfl

theorem Wf.filter (hc : c.Wf) (p : Int32 × Nat → Bool) :
    Wf { c with entries := c.entries.filter p } :=
  hc.of_subset (fun _ he => (List.mem_filter.mp he).1) hc.counts (fun _ _ => Nat.le_refl _)
    fun h => Or.inl h

theorem Wf.publish (hc : c.Wf) (dcId : Int32) (tx : Nat) : (c.publish dcId tx).Wf := by
  unfold RouteCache.publish
  split
  next hfree =>
    rw [Bool.and_eq_true, Bool.not_eq_true', Bool.not_eq_true'] at hfree
    refine ⟨hc.counts, fun e he => ?_, fun h => absurd (hfree.1.symm.trans h) Bool.false_ne_true⟩
    rcases List.mem_append.mp he with he | he
    · exact hc.blocked e (List.mem_filter.mp he).1
    · obtain rfl := List.mem_singleton.mp he
      have := mt (any_iff hc.counts).mpr (by rw [hfree.2]; exact Bool.false_ne_true)
      simpa using this
  next => exact hc

theorem disconnecting_publish :
    (c.publish dcId tx).disconnecting = c.disconnecting := by
  unfold publish
  split <;> rfl

theorem mem_publish {e : Int32 × Nat} (h : e ∈ (c.publish dcId tx).entries) :
    e ∈ c.entries ∨ e = (dcId, tx) := by
  unfold publish at h
  split at h
  next =>
    rcases List.mem_append.mp h with h | h
    · exact Or.inl (List.mem_filter.mp h).1
    · exact Or.inr (List.mem_singleton.mp h)
  next => exact Or.inl h

theorem mem_of_find (h : c.find dcId = some tx) : (dcId, tx) ∈ c.entries := by
  obtain ⟨⟨id, t⟩, he, rfl⟩ := Option.map_eq_some_iff.mp h
  obtain rfl : id = dcId := by simpa using List.find?_some he
  exact List.mem_of_find?_eq_some he

end RouteCache

end Grammers
