import Grammers.LabelledPath
import Grammers.StableSort
import Mathlib.Tactic.Linarith

namespace Reassembly

open LabelledPath StableSort

variable {α : Type*} {start stop : α → Int} {p q : Int} {a : α} {xs ds : List α}

/-- What a pass over pending intervals leaves: the position it reaches, the
intervals delivered on the way, and those still ahead of it. -/
structure Drained (α : Type*) where
  position : Int
  delivered : List α
  rest : List α

/-- Deliver each interval that starts at the position, skip those behind it
and stop at the first one ahead of it. -/
def drain (start stop : α → Int) : Int → List α → Drained α
  | p, [] => ⟨p, [], []⟩
  | p, a :: as =>
    if start a = p then
      let d := drain start stop (stop a) as
      ⟨d.position, a :: d.delivered, d.rest⟩
    else if start a < p then drain start stop p as
    else ⟨p, [], a :: as⟩

attribute [elab_as_elim] drain.induct_unfolding

/-- An interval links the position it starts at to the one it ends at. -/
def Link (start stop : α → Int) (p : Int) (a : α) (q : Int) : Prop := start a = p ∧ stop a = q

/-- Intervals that follow each other without a gap or an overlap. -/
abbrev Chain (start stop : α → Int) : Int → List α → Int → Prop := Path (Link start stop)

theorem drain_chain (start stop : α → Int) (p : Int) (xs : List α) :
    Chain start stop p (drain start stop p xs).delivered (drain start stop p xs).position := by
  fun_induction drain start stop p xs with
  | case1 => exact Path.nil
  | case2 a as d ih => exact Path.cons ⟨rfl, rfl⟩ ih
  | case3 p a as _ _ ih => exact ih
  | case4 => exact Path.nil

theorem drain_beyond (h : ∀ a ∈ xs, p < start a) : drain start stop p xs = ⟨p, [], xs⟩ := by
  cases xs with
  | nil => rfl
  | cons a as =>
    have ha := h a (by simp)
    simp [drain, ha.ne', ha.not_gt]

theorem drain_rest_beyond (hs : Ascending start xs) :
    ∀ a ∈ (drain start stop p xs).rest, (drain start stop p xs).position < start a := by
  fun_induction drain start stop p xs with
  | case1 => simp
  | case2 a as d ih => exact ih (List.pairwise_cons.mp hs).2
  | case3 p a as _ _ ih => exact ih (List.pairwise_cons.mp hs).2
  | case4 p a as hne hlt =>
    intro b hb
    rcases List.mem_cons.mp hb with rfl | hb
    · show p < start b
      omega
    · have := (List.pairwise_cons.mp hs).1 b hb
      show p < start b
      omega

theorem drain_position_le (hm : ∀ a ∈ xs, start a ≤ stop a) :
    p ≤ (drain start stop p xs).position := by
  fun_induction drain start stop p xs with
  | case1 => exact le_rfl
  | case2 a as d ih =>
    have ha := hm a (by simp)
    exact ha.trans (ih fun b hb => hm b (by simp [hb]))
  | case3 p a as _ _ ih => exact ih fun b hb => hm b (by simp [hb])
  | case4 => exact le_rfl

/-- Every pending interval is delivered, still ahead, or behind the position reached. -/
theorem drain_partition (hm : ∀ a ∈ xs, start a ≤ stop a) :
    ∃ skipped, xs.Perm ((drain start stop p xs).delivered ++ (skipped ++
        (drain start stop p xs).rest)) ∧
      ∀ a ∈ skipped, start a < (drain start stop p xs).position := by
  fun_induction drain start stop p xs with
  | case1 => exact ⟨[], List.Perm.nil, by simp⟩
  | case2 a as d ih =>
    obtain ⟨skipped, hp, hs⟩ := ih fun b hb => hm b (by simp [hb])
    exact ⟨skipped, hp.cons a, hs⟩
  | case3 p a as hne hlt ih =>
    have htail : ∀ b ∈ as, start b ≤ stop b := fun b hb => hm b (by simp [hb])
    obtain ⟨skipped, hp, hs⟩ := ih htail
    refine ⟨a :: skipped, (hp.cons a).trans List.perm_middle.symm, ?_⟩
    intro b hb
    rcases List.mem_cons.mp hb with rfl | hb
    · exact hlt.trans_le (drain_position_le htail)
    · exact hs b hb
  | case4 => exact ⟨[], List.Perm.refl _, by simp⟩

theorem drain_delivered_sublist (start stop : α → Int) (p : Int) (xs : List α) :
    (drain start stop p xs).delivered.Sublist xs := by
  fun_induction drain start stop p xs with
  | case1 => exact List.Sublist.refl []
  | case2 a as d ih => exact ih.cons_cons a
  | case3 p a as _ _ ih => exact ih.cons a
  | case4 => exact List.nil_sublist _

theorem drain_rest_sublist (start stop : α → Int) (p : Int) (xs : List α) :
    (drain start stop p xs).rest.Sublist xs := by
  fun_induction drain start stop p xs with
  | case1 => exact List.Sublist.refl []
  | case2 a as d ih => exact ih.cons a
  | case3 p a as _ _ ih => exact ih.cons a
  | case4 => exact List.Sublist.refl _

theorem chain_position_le (h : Chain start stop p ds q) (hm : ∀ a ∈ ds, start a ≤ stop a) :
    p ≤ q := by
  induction h with
  | nil => exact le_rfl
  | @cons s t u a as hl _ ih =>
    have ha := hm a (by simp)
    rw [hl.1, hl.2] at ha
    exact ha.trans (ih fun b hb => hm b (by simp [hb]))

theorem chain_bounds (h : Chain start stop p ds q) (hm : ∀ a ∈ ds, start a ≤ stop a)
    (ha : a ∈ ds) : p ≤ start a ∧ stop a ≤ q := by
  induction h with
  | nil => simp at ha
  | @cons s t u b bs hl hp ih =>
    have htail : ∀ c ∈ bs, start c ≤ stop c := fun c hc => hm c (by simp [hc])
    have hb := hm b (by simp)
    have htu := chain_position_le hp htail
    rw [hl.1, hl.2] at hb
    rcases List.mem_cons.mp ha with rfl | ha
    · exact ⟨hl.1.ge, hl.2.le.trans htu⟩
    · obtain ⟨h1, h2⟩ := ih htail ha
      exact ⟨hb.trans h1, h2⟩

/-- A chain ends where it starts, or where one of its intervals does. -/
theorem chain_end (h : Chain start stop p ds q) : q = p ∨ ∃ a ∈ ds, stop a = q := by
  induction h with
  | nil => exact Or.inl rfl
  | @cons s t u a as hl _ ih =>
    rcases ih with rfl | ⟨b, hb, hq⟩
    · exact Or.inr ⟨a, by simp, hl.2⟩
    · exact Or.inr ⟨b, by simp [hb], hq⟩

/-- A position and the intervals kept until the gap before them closes. -/
structure Buffer (α : Type*) where
  position : Int
  kept : List α

section Arrivals

variable (start stop : α → Int) (capacity : Nat) (order : List α → List α)

/-- The pending list an arrival makes the buffer go through. -/
def pending (b : Buffer α) (a : α) : List α :=
  if b.position < start a then order (if b.kept.length < capacity then b.kept ++ [a] else b.kept)
  else a :: order b.kept

/-- One arrival: what it delivers, and the buffer after it. What stays ahead is
kept with the next interval last. -/
def arrive (b : Buffer α) (a : α) : Buffer α × List α :=
  let d := drain start stop b.position (pending start capacity order b a)
  (⟨d.position, d.rest.reverse⟩, d.delivered)

def arriveAll (b : Buffer α) : List α → Buffer α × List α
  | [] => (b, [])
  | a :: as =>
    let (b', ds) := arrive start stop capacity order b a
    let (b'', ds') := arriveAll b' as
    (b'', ds ++ ds')

end Arrivals

variable {capacity : Nat} {order : List α → List α} {b : Buffer α}

theorem arrive_chain : Chain start stop b.position (arrive start stop capacity order b a).2
    (arrive start stop capacity order b a).1.position :=
  drain_chain start stop b.position _

section Ordered

variable (perm : ∀ xs : List α, (order xs).Perm xs)
  (ascending : ∀ xs : List α, Ascending start (order xs))

include perm ascending in
theorem pending_ascending (h : ∀ c ∈ b.kept, b.position < start c) :
    Ascending start (pending start capacity order b a) := by
  unfold pending
  split
  next => exact ascending _
  next hle =>
    refine List.pairwise_cons.mpr ⟨?_, ascending _⟩
    intro c hc
    have := h c ((perm b.kept).mem_iff.mp hc)
    omega

include perm in
theorem mem_pending {c : α} (h : c ∈ pending start capacity order b a) : c = a ∨ c ∈ b.kept := by
  unfold pending at h
  split at h
  next =>
    have h := (perm _).mem_iff.mp h
    split at h
    next => simpa [or_comm] using h
    next => exact Or.inr h
  next =>
    rcases List.mem_cons.mp h with rfl | h
    · exact Or.inl rfl
    · exact Or.inr ((perm _).mem_iff.mp h)

include perm in
theorem kept_mem_pending {c : α} (h : c ∈ b.kept) : c ∈ pending start capacity order b a := by
  unfold pending
  split
  next =>
    apply (perm _).mem_iff.mpr
    split
    next => simp [h]
    next => exact h
  next => exact List.mem_cons_of_mem a ((perm _).mem_iff.mpr h)

include perm in
theorem self_mem_pending (h : b.kept.length < capacity) :
    a ∈ pending start capacity order b a := by
  unfold pending
  split
  next =>
    exact (perm _).mem_iff.mpr (by simp)
  next => simp

include perm in
theorem pending_length_le : (pending start capacity order b a).length ≤ b.kept.length + 1 := by
  unfold pending
  split
  next =>
    rw [(perm _).length_eq]
    split <;> simp
  next => simp [(perm _).length_eq]

include perm in
theorem arrive_kept_subset {c : α} (h : c ∈ (arrive start stop capacity order b a).1.kept) :
    c = a ∨ c ∈ b.kept :=
  mem_pending perm ((drain_rest_sublist start stop b.position _).subset (List.mem_reverse.mp h))

include perm in
theorem arrive_delivered_subset {c : α} (h : c ∈ (arrive start stop capacity order b a).2) :
    c = a ∨ c ∈ b.kept :=
  mem_pending perm ((drain_delivered_sublist start stop b.position _).subset h)

include perm ascending in
theorem arrive_ahead (h : ∀ c ∈ b.kept, b.position < start c) :
    ∀ c ∈ (arrive start stop capacity order b a).1.kept,
      (arrive start stop capacity order b a).1.position < start c :=
  fun c hc => drain_rest_beyond (pending_ascending perm ascending h) c (List.mem_reverse.mp hc)

include perm in
/-- Only an arrival at the position itself can empty a buffer that lies ahead of it. -/
theorem arrive_kept_ne_nil (h : ∀ c ∈ b.kept, b.position < start c) (hne : b.kept ≠ [])
    (ha : start a ≠ b.position) : (arrive start stop capacity order b a).1.kept ≠ [] := by
  have hnil : ∀ xs : List α, xs ≠ [] → order xs ≠ [] := fun xs hxs ho =>
    hxs ((perm xs).symm.trans (ho ▸ List.Perm.nil)).eq_nil
  simp only [arrive, pending, ne_eq, List.reverse_eq_nil_iff]
  split
  next hlt =>
    rw [drain_beyond]
    · refine hnil _ ?_
      split
      next => simp
      next => exact hne
    · intro c hc
      have hc := (perm _).mem_iff.mp hc
      split at hc
      next =>
        rcases List.mem_append.mp hc with hc | hc
        · exact h c hc
        · exact List.mem_singleton.mp hc ▸ hlt
      next => exact h c hc
  next hle =>
    rw [drain, if_neg ha, if_pos (by omega), drain_beyond]
    · exact hnil _ hne
    · exact fun c hc => h c ((perm _).mem_iff.mp hc)

include perm in
theorem arrive_kept_length (h : b.kept.length ≤ capacity) :
    (arrive start stop capacity order b a).1.kept.length ≤ capacity := by
  simp only [arrive, pending, List.length_reverse]
  split
  next =>
    refine (drain_rest_sublist start stop b.position _).length_le.trans ?_
    rw [(perm _).length_eq]
    split
    next hlt =>
      simp only [List.length_append, List.length_singleton]
      omega
    next => exact h
  next hle =>
    -- the arrival itself is delivered or skipped
    have hrest : ∀ q, (drain start stop q (order b.kept)).rest.length ≤ capacity := fun q =>
      ((drain_rest_sublist start stop q _).length_le.trans (perm _).length_eq.le).trans h
    rw [drain]
    split
    next => exact hrest _
    next hne =>
      rw [if_pos (by omega)]
      exact hrest _

theorem arriveAll_append (as bs : List α) :
    arriveAll start stop capacity order b (as ++ bs) =
      ((arriveAll start stop capacity order (arriveAll start stop capacity order b as).1 bs).1,
        (arriveAll start stop capacity order b as).2 ++
          (arriveAll start stop capacity order (arriveAll start stop capacity order b as).1 bs).2) := by
  induction as generalizing b with
  | nil => simp [arriveAll]
  | cons a as ih => simp [arriveAll, ih]

/-- How far a chain has been delivered when a set of its intervals has been seen. -/
structure Progress (start stop : α → Int) (p : Int) (chain seen ds : List α) (b : Buffer α) :
    Prop where
  split : ∃ todo, chain = ds ++ todo ∧ ∀ c ∈ b.kept, c ∈ todo
  reached : Chain start stop p ds b.position
  ahead : ∀ c ∈ b.kept, b.position < start c
  covered : ∀ c ∈ seen, c ∈ ds ∨ c ∈ b.kept
  short : b.kept.length ≤ seen.length

theorem chain_end_unique {t u : Int} (h : Chain start stop p ds t)
    (h' : Chain start stop p ds u) : t = u :=
  Path.end_unique (fun _ _ _ _ hl hl' => hl.2.symm.trans hl'.2) h h'

/-- Draining members of the chain extends the delivered part of it. -/
theorem drain_progress {chain todo done : List α} {p₀ : Int}
    (hc : Chain start stop p₀ chain q) (hm : ∀ c ∈ chain, start c < stop c)
    (hsplit : chain = done ++ todo) (hreach : Chain start stop p₀ done p)
    (hx : ∀ c ∈ xs, c ∈ chain) :
    ∃ todo', chain = done ++ (drain start stop p xs).delivered ++ todo' ∧
      Chain start stop p₀ (done ++ (drain start stop p xs).delivered)
        (drain start stop p xs).position ∧
      ∀ c ∈ xs, c ∈ done ++ (drain start stop p xs).delivered ∨
        c ∈ (drain start stop p xs).rest := by
  induction xs generalizing p done todo with
  | nil => exact ⟨todo, by simpa [drain] using hsplit, by simpa [drain] using hreach, by simp⟩
  | cons a as ih =>
    have htail : ∀ c ∈ as, c ∈ chain := fun c h => hx c (by simp [h])
    have htodo : Chain start stop p todo q := by
      obtain ⟨t, h1, h2⟩ := Path.of_append (hsplit ▸ hc)
      exact chain_end_unique h1 hreach ▸ h2
    have hmem : a ∈ done ∨ a ∈ todo := by
      have := hx a (by simp)
      rw [hsplit] at this
      exact List.mem_append.mp this
    -- the position tells delivered intervals from pending ones, since no interval is empty
    have hdone : a ∈ done → start a < p := by
      intro h
      have h1 := (chain_bounds hreach (fun d hd => (hm d (by simp [hsplit, hd])).le) h).2
      have h2 := hm a (hx a (by simp))
      omega
    have hpend : a ∈ todo → p ≤ start a := fun h =>
      (chain_bounds htodo (fun d hd => (hm d (by simp [hsplit, hd])).le) h).1
    rw [drain]
    split
    next he =>
      have hin : a ∈ todo := hmem.resolve_left fun h => absurd (hdone h) (by omega)
      cases todo with
      | nil => simp at hin
      | cons c todo =>
        obtain ⟨t, hl, hp⟩ := Path.cons_iff.mp htodo
        have hac : a = c := by
          rcases List.mem_cons.mp hin with h | h
          · exact h
          · have h1 := (chain_bounds hp (fun d hd => (hm d (by simp [hsplit, hd])).le) h).1
            have h2 := hm c (by simp [hsplit])
            rw [hl.1, hl.2] at h2
            omega
        subst hac
        obtain ⟨todo', h1, h2, h3⟩ := ih (show chain = (done ++ [a]) ++ todo by simp [hsplit])
          (hreach.append (Path.single ⟨he, rfl⟩)) htail
        refine ⟨todo', by simpa using h1, by simpa using h2, ?_⟩
        intro d hd
        rcases List.mem_cons.mp hd with rfl | hd
        · exact Or.inl (by simp)
        · simpa using h3 d hd
    next hne =>
      split
      next hlt =>
        obtain ⟨todo', h1, h2, h3⟩ := ih hsplit hreach htail
        refine ⟨todo', h1, h2, ?_⟩
        intro d hd
        rcases List.mem_cons.mp hd with rfl | hd
        · have hin := hmem.resolve_right fun h => absurd (hpend h) (by omega)
          exact Or.inl (List.mem_append_left _ hin)
        · exact h3 d hd
      next => exact ⟨todo, by simpa using hsplit, by simpa using hreach, fun d hd => Or.inr hd⟩

include perm ascending in
theorem arrive_progress {chain seen : List α} (hc : Chain start stop p chain q)
    (hm : ∀ c ∈ chain, start c < stop c) (ha : a ∈ chain) (hcap : seen.length < capacity)
    (h : Progress start stop p chain seen ds b) :
    Progress start stop p chain (a :: seen) (ds ++ (arrive start stop capacity order b a).2)
      (arrive start stop capacity order b a).1 := by
  obtain ⟨todo, hsplit, hkept⟩ := h.split
  have hx : ∀ c ∈ pending start capacity order b a, c ∈ chain := by
    intro c hcm
    rcases mem_pending perm hcm with rfl | hk
    · exact ha
    · simp [hsplit, hkept c hk]
  obtain ⟨todo', h1, h2, h3⟩ := drain_progress hc hm hsplit h.reached hx
  have hasc : Ascending start (pending start capacity order b a) :=
    pending_ascending perm ascending h.ahead
  have hahead : ∀ c ∈ (drain start stop b.position (pending start capacity order b a)).rest,
      (drain start stop b.position (pending start capacity order b a)).position < start c :=
    drain_rest_beyond hasc
  have hrest := drain_rest_sublist start stop b.position (pending start capacity order b a)
  constructor
  · refine ⟨todo', h1, ?_⟩
    intro c hcm
    have hcr := List.mem_reverse.mp hcm
    have hcc := hx c (hrest.subset hcr)
    rw [h1] at hcc
    refine (List.mem_append.mp hcc).resolve_left fun hd => ?_
    have hle : ∀ d ∈ ds ++ (drain start stop b.position
        (pending start capacity order b a)).delivered, start d ≤ stop d :=
      fun d hd => (hm d (by rw [h1]; exact List.mem_append_left _ hd)).le
    have hb := (chain_bounds h2 hle hd).2
    have := hahead c hcr
    have := hm c (hx c (hrest.subset hcr))
    omega
  · exact h2
  · exact fun c hcm => hahead c (List.mem_reverse.mp hcm)
  · intro c hcs
    have hcp : c ∈ pending start capacity order b a ∨ c ∈ ds := by
      rcases List.mem_cons.mp hcs with rfl | hcs
      · exact Or.inl (self_mem_pending perm (h.short.trans_lt hcap))
      · rcases h.covered c hcs with hd | hk
        · exact Or.inr hd
        · exact Or.inl (kept_mem_pending perm hk)
    rcases hcp with hcp | hd
    · exact (h3 c hcp).imp_right List.mem_reverse.mpr
    · exact Or.inl (List.mem_append_left _ hd)
  · have h4 := hrest.length_le
    have h5 : (pending start capacity order b a).length ≤ b.kept.length + 1 :=
      pending_length_le perm
    have h6 := h.short
    simp only [arrive, List.length_reverse, List.length_cons]
    omega

include perm ascending in
theorem arriveAll_progress {chain seen as : List α} (hc : Chain start stop p chain q)
    (hm : ∀ c ∈ chain, start c < stop c) (has : ∀ c ∈ as, c ∈ chain)
    (hcap : seen.length + as.length ≤ capacity) (h : Progress start stop p chain seen ds b) :
    Progress start stop p chain (as.reverse ++ seen)
      (ds ++ (arriveAll start stop capacity order b as).2)
      (arriveAll start stop capacity order b as).1 := by
  induction as generalizing seen ds b with
  | nil => simpa [arriveAll] using h
  | cons a as ih =>
    simp only [List.length_cons] at hcap
    have hlt : seen.length < capacity := by omega
    have hstep := arrive_progress perm ascending hc hm (has a (by simp)) hlt h
    have hrun := ih (fun c hcm => has c (by simp [hcm])) (by simp only [List.length_cons]; omega)
      hstep
    simpa [arriveAll, List.append_assoc] using hrun

include perm ascending in
/-- However the intervals of a chain are repeated and ordered, once all have arrived
they have been delivered exactly once, in order, and nothing stays behind. -/
theorem arriveAll_complete {chain as : List α} (hc : Chain start stop p chain q)
    (hm : ∀ c ∈ chain, start c < stop c) (has : ∀ c ∈ as, c ∈ chain)
    (hall : ∀ c ∈ chain, c ∈ as) (hcap : as.length ≤ capacity) :
    arriveAll start stop capacity order ⟨p, []⟩ as = (⟨q, []⟩, chain) := by
  have hinit : Progress start stop p chain [] [] ⟨p, []⟩ :=
    ⟨⟨chain, rfl, by simp⟩, Path.nil, by simp, by simp, le_rfl⟩
  have h := arriveAll_progress perm ascending hc hm has (by simpa using hcap) hinit
  simp only [List.append_nil, List.nil_append] at h
  generalize arriveAll start stop capacity order ⟨p, []⟩ as = r at h
  obtain ⟨⟨position, kept⟩, delivered⟩ := r
  obtain ⟨todo, hsplit, hkept⟩ := h.split
  obtain ⟨t, h1, h2⟩ := Path.of_append (hsplit ▸ hc)
  have ht : t = position := chain_end_unique h1 h.reached
  cases todo with
  | nil =>
    have hnil : kept = [] := List.eq_nil_iff_forall_not_mem.mpr fun c hcm => by simpa using hkept c hcm
    have hq : q = t := Path.nil_iff.mp h2
    simp only [List.append_nil] at hsplit
    simp [hnil, hq, ht, hsplit]
  | cons c todo =>
    -- the next interval of the chain has arrived, so it is neither delivered nor kept
    obtain ⟨_, hl, _⟩ := Path.cons_iff.mp h2
    rcases h.covered c (by simpa using hall c (by simp [hsplit])) with hd | hk
    · have hb := (chain_bounds h1 (fun d hd => (hm d (by simp [hsplit, hd])).le) hd).2
      have := hm c (by simp [hsplit])
      have := hl.1
      omega
    · have hlt : position < start c := h.ahead c hk
      have := hl.1
      omega

include perm in
/-- Intervals that chain on to the position are delivered as they come, past a
buffer that lies beyond their end. -/
theorem arriveAll_chain (hc : Chain start stop b.position ds q)
    (hm : ∀ c ∈ ds, start c ≤ stop c) (hk : ∀ c ∈ b.kept, q < start c) :
    (arriveAll start stop capacity order b ds).2 = ds ∧
      (arriveAll start stop capacity order b ds).1.position = q ∧
      (arriveAll start stop capacity order b ds).1.kept.Perm b.kept := by
  induction ds generalizing b with
  | nil => exact ⟨rfl, (Path.nil_iff.mp hc).symm, List.Perm.refl _⟩
  | cons a as ih =>
    obtain ⟨t, hl, hp⟩ := Path.cons_iff.mp hc
    have htail : ∀ c ∈ as, start c ≤ stop c := fun c h => hm c (by simp [h])
    have htq := chain_position_le hp htail
    have hstep : arrive start stop capacity order b a = (⟨t, (order b.kept).reverse⟩, [a]) := by
      have hbeyond : ∀ c ∈ order b.kept, t < start c := fun c h =>
        htq.trans_lt (hk c ((perm _).mem_iff.mp h))
      simp [arrive, pending, drain, hl.1, hl.2, drain_beyond hbeyond]
    have hperm : ((order b.kept).reverse).Perm b.kept := (List.reverse_perm _).trans (perm _)
    obtain ⟨h1, h2, h3⟩ := ih (b := ⟨t, (order b.kept).reverse⟩) hp htail
      (fun c h => hk c (hperm.mem_iff.mp h))
    simp only [arriveAll, hstep]
    exact ⟨by simp [h1], h2, h3.trans hperm⟩

end Ordered

end Reassembly
