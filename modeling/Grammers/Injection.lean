import Grammers.Inject
import Grammers.Intervals
import Grammers.StableSort

namespace Grammers

open Nesting

namespace Parsers

variable {Timestamp : Type} {show' : Timestamp → Text}

namespace Position

/-- The order of positions: by offset, then as edges go at one offset. -/
def Le (a b : Position) : Prop := a.offset < b.offset ∨ a.offset = b.offset ∧ a.goesBefore b = true

theorem goesBefore_iff {a b : Position} : a.goesBefore b = true ↔
    (a.edge = .after ∧ b.edge = .before) ∨
      (a.edge = .after ∧ b.edge = .after ∧ (b.index < a.index ∨ a.index = b.index ∧ a.part ≤ b.part)) ∨
      (a.edge = .before ∧ b.edge = .before ∧
        (a.index < b.index ∨ a.index = b.index ∧ a.part ≤ b.part)) := by
  unfold goesBefore
  cases a.edge <;> cases b.edge <;> simp

theorem compare_ne_gt {β : Type} [LinearOrder β] (a b : β) : compare a b ≠ .gt ↔ a ≤ b := by
  rw [ne_eq, compare_gt_iff_gt, not_lt]

theorem then_ne_gt {x y : Ordering} : x.then y ≠ .gt ↔ x = .lt ∨ x = .eq ∧ y ≠ .gt := by
  cases x <;> simp [Ordering.then]

theorem then_eq_eq {x y : Ordering} : x.then y = .eq ↔ x = .eq ∧ y = .eq := by
  cases x <;> simp [Ordering.then]

theorem then_eq_lt {x y : Ordering} : x.then y = .lt ↔ x = .lt ∨ x = .eq ∧ y = .lt := by
  cases x <;> simp [Ordering.then]

theorem cmp_ne_gt_iff {a b : Position} : a.cmp b ≠ .gt ↔ a.Le b := by
  rw [cmp, Le, goesBefore_iff]
  obtain ⟨offset, edge, index, part⟩ := a
  obtain ⟨offset', edge', index', part'⟩ := b
  cases edge <;> cases edge' <;>
    simp only [then_ne_gt, then_eq_eq, then_eq_lt, Edge.cmp, compare_lt_iff_lt, compare_eq_iff_eq,
      compare_ne_gt, reduceCtorEq, and_true, and_false, or_false, false_or, false_and, true_and] <;>
    omega

theorem Le.total (a b : Position) : a.Le b ∨ b.Le a := by
  simp only [Le, goesBefore_iff]
  cases a.edge <;> cases b.edge <;> simp <;> omega

theorem Le.trans {a b c : Position} (h : a.Le b) (h' : b.Le c) : a.Le c := by
  simp only [Le, goesBefore_iff] at *
  revert h h'
  cases a.edge <;> cases b.edge <;> cases c.edge <;> simp <;> omega

theorem Le.antisymm {a b : Position} (h : a.Le b) (h' : b.Le a) : a = b := by
  simp only [Le, goesBefore_iff] at *
  obtain ⟨offset, edge, index, part⟩ := a
  obtain ⟨offset', edge', index', part'⟩ := b
  revert h h'
  cases edge <;> cases edge' <;> simp <;> omega

end Position

/-! The walk writes what the reference writes. -/

/-- The insertions in ascending order. -/
def ascending (insertions : List (Insertion Timestamp)) : List (Insertion Timestamp) :=
  (insertions.mergeSort fun a b => b.1.cmp a.1 ≠ .gt).reverse

section Order

variable {insertions : List (Insertion Timestamp)}

theorem ascending_perm (insertions : List (Insertion Timestamp)) :
    (ascending insertions).Perm insertions :=
  (List.reverse_perm _).trans (List.mergeSort_perm _ _)

theorem ascending_pairwise (insertions : List (Insertion Timestamp)) :
    (ascending insertions).Pairwise fun a b => a.1.Le b.1 := by
  have hsorted := @List.pairwise_mergeSort _ (fun a b : Insertion Timestamp => b.1.cmp a.1 ≠ .gt)
    (fun a b c hab hbc => by
      simp only [decide_eq_true_eq, Position.cmp_ne_gt_iff] at *
      exact hbc.trans hab)
    (fun a b => by
      simp only [Bool.or_eq_true, decide_eq_true_eq, Position.cmp_ne_gt_iff]
      exact Position.Le.total _ _) insertions
  rw [ascending, List.pairwise_reverse]
  exact hsorted.imp fun h => Position.cmp_ne_gt_iff.mp (of_decide_eq_true h)

/-- A list of insertions is determined by its entries when it is in order. -/
theorem eq_of_ordered {xs ys : List (Insertion Timestamp)} (hperm : xs.Perm ys)
    (hdistinct : (ys.map Prod.fst).Nodup) (hx : xs.Pairwise fun a b => a.1.Le b.1)
    (hy : ys.Pairwise fun a b => a.1.Le b.1) : xs = ys :=
  hperm.eq_of_pairwise (fun _ _ ha hb hab hba =>
    List.inj_on_of_nodup_map hdistinct (hperm.subset ha) hb (hab.antisymm hba)) hx hy

theorem segmentsAt_perm (offset : Nat) : (segmentsAt insertions offset).Perm
    (insertions.filter fun x => x.1.offset = (offset : Int)) :=
  List.mergeSort_perm _ _

theorem mem_segmentsAt {offset : Nat} {x : Insertion Timestamp} :
    x ∈ segmentsAt insertions offset ↔ x ∈ insertions ∧ x.1.offset = offset := by
  rw [(segmentsAt_perm offset).mem_iff, List.mem_filter, decide_eq_true_iff]

theorem segmentsAt_pairwise (offset : Nat) :
    (segmentsAt insertions offset).Pairwise fun a b => a.1.Le b.1 := by
  have hgoes : ∀ {a b : Position}, a.offset = b.offset → (a.goesBefore b = true ↔ a.Le b) := by
    intro a b hab
    simp [Position.Le, hab]
  have hsorted := @List.pairwise_mergeSort _
    (fun a b : Insertion Timestamp => a.1.goesBefore b.1)
    (fun a b c hab hbc => by
      simp only [Position.goesBefore_iff] at *
      revert hab hbc
      cases a.1.edge <;> cases b.1.edge <;> cases c.1.edge <;> simp <;> omega)
    (fun a b => by
      rw [Bool.or_eq_true]
      simp only [Position.goesBefore_iff]
      cases a.1.edge <;> cases b.1.edge <;> simp <;> omega)
    (insertions.filter fun x => x.1.offset = (offset : Int))
  refine List.Pairwise.imp_of_mem (fun {a b} ha hb h => (hgoes ?_).mp h) hsorted
  exact (mem_segmentsAt.mp ha).2.trans (mem_segmentsAt.mp hb).2.symm

/-- What is due at one offset, in order. -/
theorem segmentsAt_eq (hdistinct : (insertions.map Prod.fst).Nodup) (offset : Nat) :
    segmentsAt insertions offset =
      (ascending insertions).filter fun x => x.1.offset = (offset : Int) := by
  refine eq_of_ordered ((segmentsAt_perm offset).trans ((ascending_perm insertions).symm.filter _)) ?_
    (segmentsAt_pairwise offset) ((ascending_pairwise insertions).filter _)
  exact ((((ascending_perm insertions).map Prod.fst).nodup_iff).mpr hdistinct).sublist
    (List.filter_sublist.map _)

end Order

/-- What is left when everything before an offset has been written. -/
def remaining (insertions : List (Insertion Timestamp)) (offset : Nat) :
    List (Insertion Timestamp) :=
  (ascending insertions).filter fun x => (offset : Int) ≤ x.1.offset

theorem popAt_eq {index : Nat} {xs : List (Insertion Timestamp)}
    (hsorted : xs.Pairwise fun a b => a.1.Le b.1) (hle : ∀ x ∈ xs, (index : Int) ≤ x.1.offset) :
    popAt show' index xs =
      ((xs.filter fun x => x.1.offset = (index : Int)).flatMap fun x => x.2.display show',
        xs.filter fun x => ((index + 1 : Nat) : Int) ≤ x.1.offset) := by
  induction xs with
  | nil => rfl
  | cons x xs ih =>
    obtain ⟨hx, hrest⟩ := List.pairwise_cons.mp hsorted
    have hxle := hle x List.mem_cons_self
    have ih := ih hrest fun y hy => hle y (List.mem_cons_of_mem _ hy)
    obtain ⟨at', what⟩ := x
    rw [popAt]
    by_cases hat : at'.offset = index
    · rw [if_pos hat, ih, List.filter_cons_of_pos (by simpa using hat),
        List.filter_cons_of_neg (by simp only [decide_eq_true_eq]; push_cast; omega),
        List.flatMap_cons]
    · have hlater : ∀ y ∈ (at', what) :: xs, ((index + 1 : Nat) : Int) ≤ y.1.offset := by
        intro y hy
        have hlt : (index : Int) < at'.offset := lt_of_le_of_ne hxle (Ne.symm hat)
        rcases List.mem_cons.mp hy with rfl | hy
        · push_cast
          omega
        · have hxy := hx y hy
          simp only [Position.Le] at hxy
          push_cast
          omega
      have hnone : ((at', what) :: xs).filter (fun x => x.1.offset = (index : Int)) = [] := by
        refine List.filter_eq_nil_iff.mpr fun y hy => ?_
        have := hlater y hy
        simp only [decide_eq_true_eq]
        omega
      have hall : ((at', what) :: xs).filter
          (fun x => ((index + 1 : Nat) : Int) ≤ x.1.offset) = (at', what) :: xs :=
        List.filter_eq_self.mpr fun y hy => by simpa using hlater y hy
      rw [if_neg hat, hnone, hall]
      rfl

theorem popAt_remaining {insertions : List (Insertion Timestamp)}
    (hdistinct : (insertions.map Prod.fst).Nodup) (index : Nat) :
    popAt show' index (remaining insertions index) =
      ((segmentsAt insertions index).flatMap fun x => x.2.display show',
        remaining insertions (index + 1)) := by
  have hle : ∀ x ∈ remaining insertions index, (index : Int) ≤ x.1.offset := fun x hx =>
    of_decide_eq_true (List.mem_filter.mp hx).2
  have hsorted : (remaining insertions index).Pairwise fun a b => a.1.Le b.1 :=
    (ascending_pairwise insertions).filter _
  rw [popAt_eq hsorted hle]
  have hnow : (remaining insertions index).filter (fun x => x.1.offset = (index : Int)) =
      segmentsAt insertions index := by
    rw [segmentsAt_eq hdistinct, remaining, List.filter_filter]
    refine List.filter_congr fun x _ => ?_
    rw [Bool.eq_iff_iff]
    simp only [Bool.and_eq_true, decide_eq_true_eq]
    omega
  have hlater : (remaining insertions index).filter
      (fun x => ((index + 1 : Nat) : Int) ≤ x.1.offset) = remaining insertions (index + 1) := by
    rw [remaining, List.filter_filter]
    refine List.filter_congr fun x _ => ?_
    rw [Bool.eq_iff_iff]
    simp only [Bool.and_eq_true, decide_eq_true_eq]
    push_cast
    omega
  rw [hnow, hlater]

def render (show' : Timestamp → Text) (pieces : List (Piece Timestamp)) : Text :=
  pieces.flatMap (Piece.display show')

theorem render_segments (xs : List (Insertion Timestamp)) :
    render show' (xs.map .segment) = xs.flatMap fun x => x.2.display show' := by
  simp [render, List.flatMap_map, Piece.display]

theorem render_append (xs ys : List (Piece Timestamp)) :
    render show' (xs ++ ys) = render show' xs ++ render show' ys := List.flatMap_append

theorem render_text (c : Char) (xs : List (Piece Timestamp)) :
    render show' (.text c :: xs) = c :: render show' xs := rfl

/-- From the start of a character on, the walk writes the pieces of the reference. -/
theorem walk_eq {insertions : List (Insertion Timestamp)}
    (hdistinct : (insertions.map Prod.fst).Nodup) {message : Text} {offset : Nat}
    (hrange : ∀ x ∈ insertions, x.1.offset ≤ (offset + Utf16.len message : Nat)) :
    walk show' (Utf16.encode message) offset none (remaining insertions offset) =
      some (render show' (piecesFrom insertions offset message)) := by
  induction message generalizing offset with
  | nil =>
    have hall : remaining insertions offset = segmentsAt insertions offset := by
      rw [segmentsAt_eq hdistinct, remaining]
      refine List.filter_congr fun x hx => ?_
      have hle := hrange x ((ascending_perm insertions).subset hx)
      simp only [Utf16.len_nil, Nat.add_zero] at hle
      rw [Bool.eq_iff_iff]
      simp only [decide_eq_true_eq]
      omega
    rw [hall, piecesFrom, render_segments]
    rfl
  | cons c message ih =>
    have hrest : ∀ x ∈ insertions,
        x.1.offset ≤ (offset + Utf16.width c + Utf16.len message : Nat) := by
      intro x hx
      have := hrange x hx
      rw [Utf16.len_cons] at this
      omega
    have ih := ih hrest
    rw [piecesFrom, render_append, render_text]
    rcases Utf16.encodeChar_cases c with
      ⟨unit, henc, hdecode, hwidth⟩ | ⟨high, low, henc, hdecode, hpair, hwidth⟩
    · rw [hwidth] at ih ⊢
      have hencode : Utf16.encode (c :: message) = unit :: Utf16.encode message := by
        rw [Utf16.encode, List.flatMap_cons, henc]
        rfl
      rw [hencode, walk, popAt_remaining hdistinct, hdecode]
      simp only [ih, Option.map_some, List.range_one, List.flatMap_cons, List.flatMap_nil,
        List.append_nil, render_segments, Nat.add_zero]
    · rw [hwidth] at ih ⊢
      have hencode : Utf16.encode (c :: message) = high :: low :: Utf16.encode message := by
        rw [Utf16.encode, List.flatMap_cons, henc]
        rfl
      have hrange2 : List.range 2 = [0, 1] := rfl
      rw [hencode, walk, popAt_remaining hdistinct, hdecode]
      simp only
      rw [walk, popAt_remaining hdistinct, hpair]
      simp only [ih, Option.map_some, hrange2, List.flatMap_cons, List.flatMap_nil, List.append_nil,
        render_append, render_segments, Nat.add_zero, List.append_assoc, Nat.add_assoc]

/-! Nothing of the message is lost, and every insertion is written once. -/

def Piece.insertion? : Piece Timestamp → Option (Insertion Timestamp)
  | .text _ => none
  | .segment x => some x

theorem filterMap_text_segments (xs : List (Insertion Timestamp)) :
    (xs.map Piece.segment).filterMap Piece.text? = [] := by
  rw [List.filterMap_map]
  exact List.filterMap_eq_nil_iff.mpr fun x _ => rfl

theorem filterMap_text_piecesFrom (insertions : List (Insertion Timestamp)) (offset : Nat)
    (message : Text) : (piecesFrom insertions offset message).filterMap Piece.text? = message := by
  induction message generalizing offset with
  | nil => exact filterMap_text_segments _
  | cons c message ih =>
    have hdue : ((List.range (Utf16.width c)).flatMap fun d =>
        (segmentsAt insertions (offset + d)).map Piece.segment).filterMap Piece.text? = [] := by
      rw [List.filterMap_flatMap]
      exact List.flatMap_eq_nil_iff.mpr fun d _ => filterMap_text_segments _
    rw [piecesFrom, List.filterMap_append, hdue, List.nil_append]
    exact congrArg (c :: ·) (ih _)

theorem filterMap_insertion_segments (xs : List (Insertion Timestamp)) :
    (xs.map Piece.segment).filterMap Piece.insertion? = xs := by
  rw [List.filterMap_map]
  exact List.filterMap_some

/-- What is due at one offset comes first of what remains. -/
theorem remaining_eq {insertions : List (Insertion Timestamp)}
    (hdistinct : (insertions.map Prod.fst).Nodup) (offset : Nat) :
    remaining insertions offset =
      segmentsAt insertions offset ++ remaining insertions (offset + 1) := by
  have hsplit : remaining insertions offset = (ascending insertions).filter fun x =>
      decide (x.1.offset = (offset : Int)) || decide (((offset + 1 : Nat) : Int) ≤ x.1.offset) := by
    refine List.filter_congr fun x _ => ?_
    rw [Bool.eq_iff_iff]
    simp only [Bool.or_eq_true, decide_eq_true_eq]
    push_cast
    omega
  rw [hsplit, segmentsAt_eq hdistinct, remaining, filter_or_eq_append]
  · refine (ascending_pairwise insertions).imp fun {a b} hab => ?_
    simp only [Position.Le] at hab
    simp only [decide_eq_true_eq]
    push_cast
    omega
  · intro x _
    simp only [decide_eq_true_eq]
    push_cast
    omega

theorem insertions_piecesFrom {insertions : List (Insertion Timestamp)}
    (hdistinct : (insertions.map Prod.fst).Nodup) {message : Text} {offset : Nat}
    (hrange : ∀ x ∈ insertions, x.1.offset ≤ (offset + Utf16.len message : Nat)) :
    (piecesFrom insertions offset message).filterMap Piece.insertion? =
      remaining insertions offset := by
  induction message generalizing offset with
  | nil =>
    have hnone : remaining insertions (offset + 1) = [] := by
      refine List.filter_eq_nil_iff.mpr fun x hx => ?_
      have hle := hrange x ((ascending_perm insertions).subset hx)
      simp only [Utf16.len_nil, Nat.add_zero] at hle
      simp only [decide_eq_true_eq]
      push_cast
      omega
    rw [piecesFrom, filterMap_insertion_segments, remaining_eq hdistinct, hnone, List.append_nil]
  | cons c message ih =>
    have hrest : ∀ x ∈ insertions,
        x.1.offset ≤ (offset + Utf16.width c + Utf16.len message : Nat) := by
      intro x hx
      have := hrange x hx
      rw [Utf16.len_cons] at this
      omega
    have hdue : ∀ n, ((List.range n).flatMap fun d =>
        (segmentsAt insertions (offset + d)).map Piece.segment).filterMap Piece.insertion? ++
          remaining insertions (offset + n) = remaining insertions offset := by
      intro n
      induction n with
      | zero => rfl
      | succ n ihn =>
        rw [← ihn, remaining_eq hdistinct (offset + n), List.range_succ, List.flatMap_append,
          List.filterMap_append, List.flatMap_cons, List.flatMap_nil, List.append_nil,
          filterMap_insertion_segments, List.append_assoc]
        rfl
    rw [piecesFrom, List.filterMap_append, ← hdue (Utf16.width c), ← ih hrest]
    rfl

/-! Entities as intervals. -/

structure Span where
  offset : Int
  length : Int

namespace Span

def stop (s : Span) : Int := s.offset + s.length

def Contains (outer inner : Span) : Prop := outer.offset ≤ inner.offset ∧ inner.stop ≤ outer.stop

def Apart (a b : Span) : Prop := a.stop ≤ b.offset ∨ b.stop ≤ a.offset

/-- Where the marker of an edge goes. -/
def edge (s : Span) : Edge → Int
  | .before => s.offset
  | .after => s.stop

end Span

/-- Entities of a message that are not empty and nested or apart, the outer ones first. -/
structure OuterFirst (message : Text) (spans : List Span) : Prop where
  nonEmpty : ∀ s ∈ spans, 0 < s.length
  inside : ∀ s ∈ spans, 0 ≤ s.offset ∧ s.stop ≤ Utf16.len message
  nested : spans.Pairwise fun outer inner => outer.Contains inner ∨ outer.Apart inner

/-- Insertions that are parts of the markers of entities, at the edges of these. -/
def Marks (spans : List Span) (insertions : List (Insertion Timestamp)) : Prop :=
  ∀ x ∈ insertions, ∃ s, spans[x.1.index]? = some s ∧ x.1.offset = s.edge x.1.edge

/-- The parts of one marker in order. -/
def marker (insertions : List (Insertion Timestamp)) (edge : Edge) (index : Nat) :
    List (Insertion Timestamp) :=
  StableSort.sortByKey (fun x => x.1.part)
    (insertions.filter fun x => x.1.edge = edge ∧ x.1.index = index)

def expandToken (insertions : List (Insertion Timestamp)) : Token Nat Char → List (Piece Timestamp)
  | .leaf c => [.text c]
  | .opening i => (marker insertions .before i).map .segment
  | .closing i => (marker insertions .after i).map .segment

/-- The pieces are the balanced markers of the entities around exactly their parts of the message. -/
def WellNested (message : Text) (spans : List Span) (insertions : List (Insertion Timestamp))
    (pieces : List (Piece Timestamp)) : Prop :=
  ∃ tokens, Balanced tokens ∧ pieces = tokens.flatMap (expandToken insertions) ∧
    ∀ i s, spans[i]? = some s → ∃ before body after,
      tokens = before ++ .opening i :: (body ++ .closing i :: after) ∧ Balanced body ∧
        leaves before = Utf16.takeUnits s.offset.toNat message ∧
        leaves body = Utf16.slice message s.offset.toNat s.stop.toNat

section Nested

variable {message : Text} {spans : List Span} {insertions : List (Insertion Timestamp)}

def spanAt (spans : List Span) (i : Nat) : Span := (spans[i]?).getD ⟨0, 0⟩

theorem spanAt_eq {i : Nat} {s : Span} (h : spans[i]? = some s) : spanAt spans i = s := by
  rw [spanAt, h, Option.getD_some]

theorem spanAt_getElem {i : Nat} (h : i < spans.length) : spans[i]? = some (spanAt spans i) := by
  rw [spanAt, List.getElem?_eq_getElem h, Option.getD_some]

theorem spanAt_mem {i : Nat} (h : i < spans.length) : spanAt spans i ∈ spans :=
  List.mem_of_getElem? (spanAt_getElem h)

def OuterFirst.intervals (h : OuterFirst message spans) : Intervals where
  count := spans.length
  start i := (spanAt spans i).offset
  stop i := (spanAt spans i).stop
  nonEmpty i hi := by
    have := h.nonEmpty _ (spanAt_mem hi)
    rw [Span.stop]
    omega
  nested i j hij hj := by
    have hpair := List.pairwise_iff_getElem.mp h.nested i j (by omega) hj hij
    have hi := List.getElem?_eq_getElem (show i < spans.length by omega)
    have hj := List.getElem?_eq_getElem hj
    rw [spanAt_eq hi, spanAt_eq hj]
    exact hpair

theorem mem_marker {edge : Edge} {index : Nat} {x : Insertion Timestamp} :
    x ∈ marker insertions edge index ↔ x ∈ insertions ∧ x.1.edge = edge ∧ x.1.index = index := by
  rw [marker, (StableSort.sortByKey_perm _ _).mem_iff, List.mem_filter, decide_eq_true_iff]

/-- In order, and no two of them alike. -/
def Strict (a b : Insertion Timestamp) : Prop := a.1.Le b.1 ∧ a.1 ≠ b.1

theorem marker_pairwise (hdistinct : (insertions.map Prod.fst).Nodup) (edge : Edge) (index : Nat)
    {offset : Int} (hoffset : ∀ x ∈ marker insertions edge index, x.1.offset = offset) :
    (marker insertions edge index).Pairwise Strict := by
  have hparts : (marker insertions edge index).Pairwise fun a b => a.1.part ≤ b.1.part :=
    StableSort.sortByKey_ascending _ _
  have hnodup : (marker insertions edge index).Pairwise fun a b => a.1 ≠ b.1 := by
    have hmap : ((marker insertions edge index).map Prod.fst).Nodup :=
      ((StableSort.sortByKey_perm _ _).map Prod.fst).nodup_iff.mpr
        (hdistinct.sublist (List.filter_sublist.map _))
    exact List.pairwise_map.mp hmap
  refine (hparts.and hnodup).imp_of_mem fun {a b} ha hb h => ⟨?_, h.2⟩
  obtain ⟨-, haedge, haindex⟩ := mem_marker.mp ha
  obtain ⟨-, hbedge, hbindex⟩ := mem_marker.mp hb
  have hoff := (hoffset a ha).trans (hoffset b hb).symm
  refine Or.inr ⟨hoff, Position.goesBefore_iff.mpr ?_⟩
  have hpart := h.1
  cases edge with
  | after => exact Or.inr (Or.inl ⟨haedge, hbedge, Or.inr ⟨haindex.trans hbindex.symm, hpart⟩⟩)
  | before => exact Or.inr (Or.inr ⟨haedge, hbedge, Or.inr ⟨haindex.trans hbindex.symm, hpart⟩⟩)

/-- The numbers of entities in the order in which their edges at one offset are written. -/
def InOrder (edge : Edge) (indices : List Nat) : Prop :=
  indices.Pairwise fun i j => match edge with
    | .after => j < i
    | .before => i < j

theorem closingAt_pairwise (m : Intervals) (place : Int) : InOrder .after (m.closingAt place) :=
  (Intervals.pairwise_reverse_range fun _ _ hlt _ => hlt).filter _

theorem openingAt_pairwise (m : Intervals) (place : Int) : InOrder .before (m.openingAt place) :=
  List.pairwise_lt_range.filter _

theorem flatMap_marker_pairwise (hdistinct : (insertions.map Prod.fst).Nodup) {edge : Edge}
    {indices : List Nat} {offset : Int} (horder : InOrder edge indices)
    (hoffset : ∀ i ∈ indices, ∀ x ∈ marker insertions edge i, x.1.offset = offset) :
    (indices.flatMap (marker insertions edge)).Pairwise Strict := by
  refine List.pairwise_flatMap.mpr ⟨fun i hi => marker_pairwise hdistinct _ _ (hoffset i hi), ?_⟩
  refine List.Pairwise.imp_of_mem (fun {i j} hi hj hlt x hx y hy => ?_) horder
  obtain ⟨-, hxedge, hxindex⟩ := mem_marker.mp hx
  obtain ⟨-, hyedge, hyindex⟩ := mem_marker.mp hy
  have heq := (hoffset i hi x hx).trans (hoffset j hj y hy).symm
  refine ⟨Or.inr ⟨heq, Position.goesBefore_iff.mpr ?_⟩, fun hxy => ?_⟩
  · cases edge with
    | after => exact Or.inr (Or.inl ⟨hxedge, hyedge, Or.inl (by simp only at hlt; omega)⟩)
    | before => exact Or.inr (Or.inr ⟨hxedge, hyedge, Or.inl (by simp only at hlt; omega)⟩)
  · rw [hxy] at hxindex
    cases edge <;> simp only at hlt <;> omega

/-- The markers of the entities that end and start at one offset. -/
def markersAt (houter : OuterFirst message spans) (insertions : List (Insertion Timestamp))
    (offset : Int) : List (Insertion Timestamp) :=
  (houter.intervals.closingAt offset).flatMap (marker insertions .after) ++
    (houter.intervals.openingAt offset).flatMap (marker insertions .before)

theorem offset_of_mem_marker (hmarks : Marks spans insertions) {edge : Edge} {index : Nat}
    {x : Insertion Timestamp} (hx : x ∈ marker insertions edge index) :
    index < spans.length ∧ x.1.offset = (spanAt spans index).edge edge := by
  obtain ⟨hmem, rfl, rfl⟩ := mem_marker.mp hx
  obtain ⟨s, hs, heq⟩ := hmarks x hmem
  rw [spanAt_eq hs]
  exact ⟨(List.getElem?_eq_some_iff.mp hs).1, heq⟩

theorem mem_closingAt (houter : OuterFirst message spans) {offset : Int} {i : Nat} :
    i ∈ houter.intervals.closingAt offset ↔ i < spans.length ∧ (spanAt spans i).stop = offset := by
  rw [Intervals.closingAt, List.mem_filter, List.mem_reverse, List.mem_range, decide_eq_true_iff]
  rfl

theorem mem_openingAt (houter : OuterFirst message spans) {offset : Int} {i : Nat} :
    i ∈ houter.intervals.openingAt offset ↔ i < spans.length ∧ (spanAt spans i).offset = offset := by
  rw [Intervals.openingAt, List.mem_filter, List.mem_range, decide_eq_true_iff]
  rfl

theorem mem_markersAt (hmarks : Marks spans insertions) (houter : OuterFirst message spans)
    {offset : Int} {x : Insertion Timestamp} :
    x ∈ markersAt houter insertions offset ↔ x ∈ insertions ∧ x.1.offset = offset := by
  rw [markersAt, List.mem_append, List.mem_flatMap, List.mem_flatMap]
  refine ⟨?_, fun ⟨hx, hoffset⟩ => ?_⟩
  · rintro (⟨i, hi, hx⟩ | ⟨i, hi, hx⟩)
    · exact ⟨(mem_marker.mp hx).1,
        (offset_of_mem_marker hmarks hx).2.trans ((mem_closingAt houter).mp hi).2⟩
    · exact ⟨(mem_marker.mp hx).1,
        (offset_of_mem_marker hmarks hx).2.trans ((mem_openingAt houter).mp hi).2⟩
  · have hx' : x ∈ marker insertions x.1.edge x.1.index := mem_marker.mpr ⟨hx, rfl, rfl⟩
    obtain ⟨hlt, heq⟩ := offset_of_mem_marker hmarks hx'
    cases hedge : x.1.edge with
    | after =>
      rw [hedge] at heq hx'
      exact Or.inl ⟨_, (mem_closingAt houter).mpr ⟨hlt, heq.symm.trans hoffset⟩, hx'⟩
    | before =>
      rw [hedge] at heq hx'
      exact Or.inr ⟨_, (mem_openingAt houter).mpr ⟨hlt, heq.symm.trans hoffset⟩, hx'⟩

theorem markersAt_pairwise (hdistinct : (insertions.map Prod.fst).Nodup)
    (hmarks : Marks spans insertions) (houter : OuterFirst message spans) (offset : Int) :
    (markersAt houter insertions offset).Pairwise Strict := by
  refine List.pairwise_append.mpr ⟨?_, ?_, fun x hx y hy => ?_⟩
  · exact flatMap_marker_pairwise hdistinct (closingAt_pairwise _ _) fun i hi x hx =>
      (offset_of_mem_marker hmarks hx).2.trans ((mem_closingAt houter).mp hi).2
  · exact flatMap_marker_pairwise hdistinct (openingAt_pairwise _ _) fun i hi x hx =>
      (offset_of_mem_marker hmarks hx).2.trans ((mem_openingAt houter).mp hi).2
  · have hxoff := ((mem_markersAt hmarks houter).mp (List.mem_append_left _ hx)).2
    have hyoff := ((mem_markersAt hmarks houter).mp (List.mem_append_right _ hy)).2
    obtain ⟨i, hi, hx⟩ := List.mem_flatMap.mp hx
    obtain ⟨j, hj, hy⟩ := List.mem_flatMap.mp hy
    obtain ⟨-, hxedge, -⟩ := mem_marker.mp hx
    obtain ⟨-, hyedge, -⟩ := mem_marker.mp hy
    refine ⟨Or.inr ⟨hxoff.trans hyoff.symm,
      Position.goesBefore_iff.mpr (Or.inl ⟨hxedge, hyedge⟩)⟩, fun hxy => ?_⟩
    rw [hxy, hyedge] at hxedge
    cases hxedge

/-- What is due at one offset are the markers of the entities that end and start there. -/
theorem segmentsAt_eq_markersAt (hdistinct : (insertions.map Prod.fst).Nodup)
    (hmarks : Marks spans insertions) (houter : OuterFirst message spans) (offset : Nat) :
    segmentsAt insertions offset = markersAt houter insertions offset := by
  have hstrict := markersAt_pairwise hdistinct hmarks houter offset
  have hleft : (segmentsAt insertions offset).Nodup :=
    (segmentsAt_perm offset).nodup_iff.mpr (hdistinct.of_map.filter _)
  have hright : (markersAt houter insertions offset).Nodup :=
    hstrict.imp fun h heq => h.2 (congrArg Prod.fst heq)
  have hperm : (segmentsAt insertions offset).Perm (markersAt houter insertions offset) :=
    (List.perm_ext_iff_of_nodup hleft hright).mpr fun x =>
      mem_segmentsAt.trans (mem_markersAt hmarks houter).symm
  exact eq_of_ordered hperm (List.pairwise_map.mpr (hstrict.imp And.right))
    (segmentsAt_pairwise offset) (hstrict.imp And.left)

/-- The tokens of the entities and of the message from an offset on. -/
def tokensFrom (m : Intervals) : Nat → Text → List (Token Nat Char)
  | offset, [] => m.tokensAt offset
  | offset, c :: message =>
    ((List.range (Utf16.width c)).flatMap fun d => m.tokensAt (offset + d : Nat)) ++
      .leaf c :: tokensFrom m (offset + Utf16.width c) message

theorem piecesFrom_eq (hdistinct : (insertions.map Prod.fst).Nodup)
    (hmarks : Marks spans insertions) (houter : OuterFirst message spans) (offset : Nat) (text : Text) :
    piecesFrom insertions offset text =
      (tokensFrom houter.intervals offset text).flatMap (expandToken insertions) := by
  have hat : ∀ offset : Nat, (segmentsAt insertions offset).map Piece.segment =
      (houter.intervals.tokensAt offset).flatMap (expandToken insertions) := by
    intro offset
    rw [segmentsAt_eq_markersAt hdistinct hmarks houter, markersAt, Intervals.tokensAt,
      List.flatMap_append, List.map_append, List.flatMap_map, List.flatMap_map, List.map_flatMap,
      List.map_flatMap]
    rfl
  induction text generalizing offset with
  | nil => exact hat offset
  | cons c text ih =>
    rw [piecesFrom, tokensFrom, List.flatMap_append, List.flatMap_cons, ih, List.flatMap_assoc]
    simp only [hat]
    rfl

section Tokens

variable (m : Intervals)

theorem run_tokensAt_range (offset n : Nat) (rest : List (Token Nat Char)) :
    run (((List.range n).flatMap fun d => m.tokensAt (offset + d : Nat)) ++ rest) (m.openAt offset) =
      run rest (m.openAt (offset + n : Nat)) := by
  induction n generalizing rest with
  | zero => rfl
  | succ n ih =>
    rw [List.range_succ, List.flatMap_append, List.append_assoc, ih, List.flatMap_cons,
      List.flatMap_nil, List.append_nil, Intervals.run_tokensAt]
    rfl

theorem run_tokensFrom (offset : Nat) (text : Text) :
    run (tokensFrom m offset text) (m.openAt offset) =
      some (m.openAt (offset + Utf16.len text + 1 : Nat)) := by
  induction text generalizing offset with
  | nil =>
    rw [tokensFrom, ← List.append_nil (m.tokensAt _), Intervals.run_tokensAt]
    rfl
  | cons c text ih =>
    rw [tokensFrom, run_tokensAt_range, run, ih, Utf16.len_cons, Nat.add_assoc offset]

/-- Where a marker is. -/
def place : Token Nat Char → Int
  | .opening i => m.start i
  | .closing i => m.stop i
  | .leaf _ => 0

theorem place_eq {token : Token Nat Char} {offset : Int} (h : token ∈ m.tokensAt offset) :
    place m token = offset := by
  cases token with
  | opening i => exact (m.mem_tokensAt_opening.mp h).2
  | closing i => exact (m.mem_tokensAt_closing.mp h).2
  | leaf c => simp [Intervals.tokensAt] at h

theorem place_bounds {token : Token Nat Char} {offset n : Nat}
    (h : token ∈ (List.range n).flatMap fun d => m.tokensAt (offset + d : Nat)) :
    (offset : Int) ≤ place m token ∧ place m token < (offset + n : Nat) := by
  obtain ⟨d, hd, hmem⟩ := List.mem_flatMap.mp h
  have hlt := List.mem_range.mp hd
  have := place_eq m hmem
  push_cast at this
  omega

theorem leaves_tokensAt_range (offset n : Nat) :
    leaves ((List.range n).flatMap fun d => (m.tokensAt (offset + d : Nat) : List (Token Nat Char))) =
      [] := by
  rw [leaves, List.filterMap_flatMap]
  exact List.flatMap_eq_nil_iff.mpr fun d _ => m.leaves_tokensAt _

theorem le_place {token : Token Nat Char} {offset : Nat} {text : Text}
    (h : token ∈ tokensFrom m offset text) (hmarker : ∀ c, token ≠ .leaf c) :
    (offset : Int) ≤ place m token := by
  induction text generalizing offset with
  | nil => exact (place_eq m h).ge
  | cons c text ih =>
    rcases List.mem_append.mp h with h | h
    · exact (place_bounds m h).1
    · have := ih ((List.mem_cons.mp h).resolve_left (hmarker c))
      omega

theorem mem_tokensFrom {token : Token Nat Char} {offset : Nat} {text : Text}
    (h : token ∈ m.tokensAt (place m token)) (hlow : (offset : Int) ≤ place m token)
    (hhigh : place m token ≤ (offset + Utf16.len text : Nat)) : token ∈ tokensFrom m offset text := by
  induction text generalizing offset with
  | nil =>
    have heq : place m token = offset := by
      simp only [Utf16.len_nil, Nat.add_zero] at hhigh
      omega
    rw [heq] at h
    exact h
  | cons c text ih =>
    rw [Utf16.len_cons] at hhigh
    rw [tokensFrom, List.mem_append]
    by_cases hlt : place m token < (offset + Utf16.width c : Nat)
    · refine Or.inl (List.mem_flatMap.mpr ⟨(place m token - offset).toNat, ?_, ?_⟩)
      · rw [List.mem_range]
        omega
      · have heq : ((offset + (place m token - offset).toNat : Nat) : Int) = place m token := by omega
        rw [heq]
        exact h
    · exact Or.inr (List.mem_cons_of_mem _ (ih (by omega) (by omega)))

/-- What is written before a marker is what lies before its place. -/
theorem leaves_before {token : Token Nat Char} (hmarker : ∀ c, token ≠ .leaf c) {offset : Nat}
    {text : Text} {before after : List (Token Nat Char)}
    (h : tokensFrom m offset text = before ++ token :: after) :
    leaves before = Utf16.takeUnits (place m token - offset).toNat text := by
  induction text generalizing offset before with
  | nil =>
    have hnone : leaves (before ++ token :: after) = [] := by
      rw [← h]
      exact m.leaves_tokensAt _
    rw [leaves_append, List.append_eq_nil_iff] at hnone
    rw [hnone.1, Utf16.takeUnits_nil]
  | cons c text ih =>
    rw [tokensFrom] at h
    have hpos := Utf16.width_pos c
    rcases List.append_eq_append_iff.mp h with ⟨left, hbefore, hrest⟩ | ⟨left, hdue, hrest⟩
    · cases left with
      | nil => exact absurd (List.cons.inj hrest).1.symm (hmarker c)
      | cons first left =>
        obtain ⟨rfl, htokens⟩ := List.cons.inj hrest
        have hmem : token ∈ tokensFrom m (offset + Utf16.width c) text := by
          rw [htokens]
          exact List.mem_append_right _ List.mem_cons_self
        have hle := le_place m hmem hmarker
        have hsub : (place m token - offset).toNat - Utf16.width c =
            (place m token - (offset + Utf16.width c : Nat)).toNat := by omega
        rw [hbefore, leaves_append, leaves_tokensAt_range, List.nil_append, leaves_leaf, ih htokens,
          Utf16.takeUnits, if_pos (by omega), hsub]
    · have hbounds : place m token < (offset + Utf16.width c : Nat) := by
        cases left with
        | nil => exact absurd (List.cons.inj hrest).1 (hmarker c)
        | cons first left =>
          obtain ⟨rfl, -⟩ := List.cons.inj hrest
          exact (place_bounds m (hdue ▸ List.mem_append_right _ List.mem_cons_self)).2
      have hnone := leaves_tokensAt_range m offset (Utf16.width c)
      rw [hdue, leaves_append, List.append_eq_nil_iff] at hnone
      rw [hnone.1, Utf16.takeUnits_eq_nil (by omega)]

end Tokens

theorem wellNested (hdistinct : (insertions.map Prod.fst).Nodup) (hmarks : Marks spans insertions)
    (houter : OuterFirst message spans) :
    WellNested message spans insertions (reference message insertions) := by
  have hinside : ∀ i < spans.length, 0 ≤ houter.intervals.start i ∧
      houter.intervals.start i < houter.intervals.stop i ∧
      houter.intervals.stop i ≤ Utf16.len message := fun i hi =>
    ⟨(houter.inside _ (spanAt_mem hi)).1, houter.intervals.nonEmpty i hi,
      (houter.inside _ (spanAt_mem hi)).2⟩
  have hstart : houter.intervals.openAt (0 : Nat) = [] :=
    houter.intervals.openAt_eq_nil fun i hi => Or.inl (by have := hinside i hi; omega)
  have hend : houter.intervals.openAt (0 + Utf16.len message + 1 : Nat) = [] :=
    houter.intervals.openAt_eq_nil fun i hi => Or.inr (by have := hinside i hi; omega)
  have hrun : run (tokensFrom houter.intervals 0 message) [] = some [] := by
    have hrun := run_tokensFrom houter.intervals 0 message
    rwa [hstart, hend] at hrun
  have hbalanced := balanced_of_run hrun
  refine ⟨_, hbalanced, piecesFrom_eq hdistinct hmarks houter 0 message, fun i s hs => ?_⟩
  have hi : i < spans.length := (List.getElem?_eq_some_iff.mp hs).1
  have hspan := spanAt_eq hs
  have hbounds := hinside i hi
  have hmem : .opening i ∈ tokensFrom houter.intervals 0 message :=
    mem_tokensFrom houter.intervals (houter.intervals.mem_tokensAt_opening.mpr ⟨hi, rfl⟩)
      (by simp only [place]; omega) (by simp only [place]; omega)
  obtain ⟨before, body, after, heq, hbody⟩ := hbalanced.exists_element hmem
  have hbefore := leaves_before houter.intervals (by simp) heq
  have heq' : tokensFrom houter.intervals 0 message =
      (before ++ .opening i :: body) ++ .closing i :: after := by rw [heq]; simp
  have hthrough := leaves_before houter.intervals (by simp) heq'
  have hlo : (place houter.intervals (.opening i) - (0 : Nat)).toNat = s.offset.toNat := by
    rw [← hspan]
    exact congrArg Int.toNat (Int.sub_zero _)
  have hhi : (place houter.intervals (.closing i) - (0 : Nat)).toNat = s.stop.toNat := by
    rw [← hspan]
    exact congrArg Int.toNat (Int.sub_zero _)
  rw [hlo] at hbefore
  rw [hhi, leaves_append, leaves_opening] at hthrough
  refine ⟨before, body, after, heq, hbody, hbefore, ?_⟩
  rw [Utf16.slice, ← hthrough, ← hbefore, List.drop_left]

end Nested

theorem toInt_abs (n : Int64) :
    n.abs.toInt = if n = Int64.minValue then Int64.minValue.toInt else n.toInt.natAbs := by
  have hmin : n.toBitVec = BitVec.intMin 64 ↔ n = Int64.minValue :=
    ⟨fun h => Int64.toBitVec_inj.mp h, fun h => congrArg Int64.toBitVec h⟩
  have habs := BitVec.toInt_abs_eq_natAbs (x := n.toBitVec)
  simp only [hmin] at habs
  exact habs

theorem len_ne_none_iff (segment : Segment Timestamp) :
    segment.len ≠ none ↔ segment ≠ .number 0 ∧ segment ≠ .number Int64.minValue := by
  cases segment with
  | fixed => simp [Segment.len]
  | string => simp [Segment.len]
  | timestamp => simp [Segment.len]
  | number n =>
    have hpos : 0 < n.abs ↔ n ≠ 0 ∧ n ≠ Int64.minValue := by
      rw [Int64.lt_iff_toInt_lt, toInt_abs]
      split
      next h =>
        subst h
        decide
      next h =>
        have hzero : n ≠ 0 ↔ n.toInt ≠ 0 := not_congr ⟨congrArg Int64.toInt, fun h => Int64.toInt_inj.mp h⟩
        rw [hzero]
        simp only [Int64.toInt_zero]
        constructor
        · intro hlt
          exact ⟨by omega, h⟩
        · rintro ⟨hne, -⟩
          omega
    rw [Segment.len]
    split <;> simp_all

/-- The markup of a message goes where the reference has it. -/
structure Injected (show' : Timestamp → Text) (message : Text)
    (insertions : List (Insertion Timestamp)) : Prop where
  written : injectIntoMessage show' message insertions =
    some (render show' (reference message insertions))
  erased : (reference message insertions).filterMap Piece.text? = message
  complete : ((reference message insertions).filterMap Piece.insertion?).Perm insertions
  nested : ∀ spans, OuterFirst message spans → Marks spans insertions →
    WellNested message spans insertions (reference message insertions)

theorem mapM_ne_none_iff {β γ : Type} {f : β → Option γ} {xs : List β} :
    xs.mapM f ≠ none ↔ ∀ x ∈ xs, f x ≠ none := by
  induction xs with
  | nil => simp
  | cons x xs ih =>
    rw [List.mapM_cons, List.forall_mem_cons, ← ih]
    cases f x with
    | none => simp
    | some y => cases xs.mapM f <;> simp

theorem injectIntoMessage_eq {message : Text} {insertions : List (Insertion Timestamp)}
    (hdistinct : (insertions.map Prod.fst).Nodup)
    (hrange : ∀ x ∈ insertions, 0 ≤ x.1.offset ∧ x.1.offset ≤ Utf16.len message) :
    injectIntoMessage show' message insertions =
      if ∀ x ∈ insertions, x.2.len ≠ none then some (render show' (reference message insertions))
      else none := by
  have hall : remaining insertions 0 = ascending insertions :=
    List.filter_eq_self.mpr fun x hx =>
      decide_eq_true (hrange x ((ascending_perm insertions).subset hx)).1
  have hwalk : walk show' (Utf16.encode message) 0 none (ascending insertions) =
      some (render show' (reference message insertions)) := by
    rw [← hall]
    exact walk_eq hdistinct fun x hx => by simpa using (hrange x hx).2
  have hlens := @mapM_ne_none_iff _ _ (fun x : Insertion Timestamp => x.2.len) insertions
  rw [injectIntoMessage]
  split
  next hnone => rw [if_neg fun h => hlens.mpr h hnone]
  next lens hsome =>
    rw [if_pos (hlens.mp (by rw [hsome]; simp))]
    exact hwalk

/-- The markup goes to its places exactly when no segment is a number without a logarithm: zero, or
the least number, which has no absolute value. -/
theorem inject_into_message_iff (show' : Timestamp → Text) (message : Text)
    (insertions : List (Insertion Timestamp)) (hdistinct : (insertions.map Prod.fst).Nodup)
    (hrange : ∀ x ∈ insertions, 0 ≤ x.1.offset ∧ x.1.offset ≤ Utf16.len message) :
    Injected show' message insertions ↔
      ∀ x ∈ insertions, x.2 ≠ .number 0 ∧ x.2 ≠ .number Int64.minValue := by
  have heq := @injectIntoMessage_eq _ show' _ _ hdistinct hrange
  have hcondition : (∀ x ∈ insertions, x.2.len ≠ none) ↔
      ∀ x ∈ insertions, x.2 ≠ .number 0 ∧ x.2 ≠ .number Int64.minValue :=
    forall₂_congr fun x _ => len_ne_none_iff x.2
  rw [← hcondition]
  refine ⟨fun h => ?_, fun h => ⟨?_, ?_, ?_, ?_⟩⟩
  · by_contra hnot
    have hwritten := h.written
    rw [heq, if_neg hnot] at hwritten
    cases hwritten
  · rw [heq, if_pos h]
  · exact filterMap_text_piecesFrom insertions 0 message
  · have hall : remaining insertions 0 = ascending insertions :=
      List.filter_eq_self.mpr fun x hx =>
        decide_eq_true (hrange x ((ascending_perm insertions).subset hx)).1
    rw [reference, insertions_piecesFrom hdistinct fun x hx => by simpa using (hrange x hx).2, hall]
    exact ascending_perm insertions
  · exact fun spans houter hmarks => wellNested hdistinct hmarks houter

/-- The markers of a mention of one character. -/
def mention (userId : Int64) : List (Insertion Empty) :=
  [(before 0 0 0, .fixed "<a href=\"tg://user?id=".toList), (before 0 1 0, .number userId),
    (before 0 2 0, .fixed "\">".toList), (after 0 0 1, .fixed "</a>".toList)]

theorem inject_into_message_mention :
    Injected nofun ['a'] (mention 7) :=
  (inject_into_message_iff nofun ['a'] (mention 7) (by decide) (by decide)).mpr (by decide)

theorem inject_into_message_panics :
    ((mention 0).map Prod.fst).Nodup ∧
      (∀ x ∈ mention 0, 0 ≤ x.1.offset ∧ x.1.offset ≤ Utf16.len ['a']) ∧
      injectIntoMessage nofun ['a'] (mention 0) = none ∧ ¬Injected nofun ['a'] (mention 0) := by
  have hnone : injectIntoMessage nofun ['a'] (mention 0) = none := by decide +kernel
  refine ⟨by decide, by decide, hnone, fun h => ?_⟩
  rw [h.written] at hnone
  cases hnone

end Parsers

end Grammers
