import Mathlib.Data.Finset.Insert
import Mathlib.Logic.Relation

namespace DepthFirst

/-! A depth-first search for a goal, which remembers the names of the vertices it has entered. -/

variable {α ι : Type*}

/-- What a vertex is expanded to: the goal itself, or a vertex to enter. -/
inductive Move (α : Type*) where
  | goal
  | enter (a : α)

/-- The moves of one vertex in order, with `enter` for a vertex that has not been entered. -/
def scan [DecidableEq ι] (name : α → ι) (enter : α → Finset ι → Option (Bool × Finset ι)) :
    List (Move α) → Finset ι → Option (Bool × Finset ι)
  | [], visited => some (false, visited)
  | .goal :: _, visited => some (true, visited)
  | .enter a :: moves, visited =>
    if name a ∈ visited then scan name enter moves visited
    else
      match enter a visited with
      | none => none
      | some (true, visited) => some (true, visited)
      | some (false, visited) => scan name enter moves visited

/-- The search from a vertex, as deep as the fuel allows. -/
def search [DecidableEq ι] (name : α → ι) (expand : α → List (Move α)) :
    Nat → α → Finset ι → Option (Bool × Finset ι)
  | 0, _, _ => none
  | fuel + 1, a, visited => scan name (search name expand fuel) (expand a) (insert (name a) visited)

theorem scan_append [DecidableEq ι] (name : α → ι) (enter : α → Finset ι → Option (Bool × Finset ι))
    (xs ys : List (Move α)) (v : Finset ι) :
    scan name enter (xs ++ ys) v =
      match scan name enter xs v with
      | none => none
      | some (true, w) => some (true, w)
      | some (false, w) => scan name enter ys w := by
  induction xs generalizing v with
  | nil => rfl
  | cons move xs ih =>
    cases move with
    | goal => rfl
    | enter a =>
      rw [List.cons_append, scan, scan]
      split
      next => exact ih v
      next =>
        split
        next => rfl
        next => rfl
        next => exact ih _

section Fuel

variable [DecidableEq ι] {name : α → ι} {expand : α → List (Move α)}

theorem scan_mono {enter enter' : α → Finset ι → Option (Bool × Finset ι)}
    (henter : ∀ a v r, enter a v = some r → enter' a v = some r) {moves : List (Move α)}
    {v : Finset ι} {r : Bool × Finset ι} (h : scan name enter moves v = some r) :
    scan name enter' moves v = some r := by
  induction moves generalizing v with
  | nil => exact h
  | cons move moves ih =>
    cases move with
    | goal => exact h
    | enter a =>
      rw [scan] at h ⊢
      split at h
      next hmem =>
        rw [if_pos hmem]
        exact ih h
      next hmem =>
        rw [if_neg hmem]
        split at h
        next => cases h
        next found =>
          rw [henter a v _ found]
          exact h
        next missed =>
          rw [henter a v _ missed]
          exact ih h

theorem search_mono {fuel fuel' : Nat} (hle : fuel ≤ fuel') {a : α} {v : Finset ι}
    {r : Bool × Finset ι} (h : search name expand fuel a v = some r) :
    search name expand fuel' a v = some r := by
  induction fuel generalizing fuel' a v r with
  | zero => cases h
  | succ fuel ih =>
    obtain ⟨fuel', rfl⟩ : ∃ n, fuel' = n + 1 := ⟨fuel' - 1, by omega⟩
    exact scan_mono (fun b w s hs => ih (by omega) hs) h

end Fuel

section Spec

variable (name : α → ι) (expand : α → List (Move α)) (vertices : List α)

/-- From `a` a path of entered vertices leads to a vertex that has the goal among its moves. -/
def Reaches (a : α) : Prop :=
  ∃ b, Relation.ReflTransGen (fun x y => .enter y ∈ expand x) a b ∧ .goal ∈ expand b

/-- A vertex that is done: it is no goal, and what it leads to has been entered. -/
structure Done (visited : Finset ι) (a : α) : Prop where
  missed : .goal ∉ expand a
  entered : ∀ b, .enter b ∈ expand a → name b ∈ visited

/-- What a part of the search does to the names when it finds nothing. -/
structure Extends (before after : Finset ι) : Prop where
  subset : before ⊆ after
  done : ∀ a ∈ vertices, name a ∈ after → name a ∉ before → Done name expand after a

/-- What the search answers from a vertex it had not entered. -/
structure Answers (a : α) (before : Finset ι) (r : Bool × Finset ι) : Prop where
  found : r.1 = true → Reaches expand a
  missed : r.1 = false → Extends name expand vertices before r.2 ∧ name a ∈ r.2

/-- What the moves of one vertex come to. -/
structure Scanned (moves : List (Move α)) (before : Finset ι) (r : Bool × Finset ι) : Prop where
  found : r.1 = true → .goal ∈ moves ∨ ∃ b, .enter b ∈ moves ∧ Reaches expand b
  missed : r.1 = false → Extends name expand vertices before r.2 ∧ .goal ∉ moves ∧
    ∀ b, .enter b ∈ moves → name b ∈ r.2

variable {name expand vertices}

theorem Done.mono {v v' : Finset ι} {a : α} (h : Done name expand v a) (hsub : v ⊆ v') :
    Done name expand v' a :=
  ⟨h.missed, fun b hb => hsub (h.entered b hb)⟩

theorem Extends.refl (v : Finset ι) : Extends name expand vertices v v :=
  ⟨Finset.Subset.refl v, fun _ _ hmem hnot => absurd hmem hnot⟩

theorem Extends.trans {u v w : Finset ι} (h : Extends name expand vertices u v)
    (h' : Extends name expand vertices v w) : Extends name expand vertices u w where
  subset := h.subset.trans h'.subset
  done a ha hmem hnot := by
    by_cases hv : name a ∈ v
    · exact (h.done a ha hv hnot).mono h'.subset
    · exact h'.done a ha hmem hv

theorem Reaches.step {a b : α} (hb : .enter b ∈ expand a) (h : Reaches expand b) :
    Reaches expand a := by
  obtain ⟨c, hpath, hgoal⟩ := h
  exact ⟨c, .head hb hpath, hgoal⟩

/-- A set of names that is closed under the moves, and at whose vertices no goal is, keeps the
search away from every goal. -/
theorem not_reaches_of_done {v : Finset ι} {a : α} (ha : a ∈ vertices) (hmem : name a ∈ v)
    (hclosed : ∀ x ∈ vertices, ∀ y, .enter y ∈ expand x → y ∈ vertices)
    (hdone : ∀ x ∈ vertices, name x ∈ v → Done name expand v x) : ¬Reaches expand a := by
  rintro ⟨b, hpath, hgoal⟩
  have hb : b ∈ vertices ∧ name b ∈ v := by
    clear hgoal
    induction hpath with
    | refl => exact ⟨ha, hmem⟩
    | tail _ hstep ih => exact ⟨hclosed _ ih.1 _ hstep, (hdone _ ih.1 ih.2).entered _ hstep⟩
  exact (hdone b hb.1 hb.2).missed hgoal

variable [DecidableEq ι]

/-- How many vertices have not been entered. -/
def fresh (name : α → ι) (vertices : List α) (visited : Finset ι) : Nat :=
  (vertices.filter fun a => name a ∉ visited).length

theorem fresh_mono {v v' : Finset ι} (hsub : v ⊆ v') :
    fresh name vertices v' ≤ fresh name vertices v := by
  refine (List.monotone_filter_right vertices fun a ha => ?_).length_le
  have hnot : name a ∉ v' := by simpa using ha
  simpa using fun hmem => hnot (hsub hmem)

theorem fresh_insert_lt {v : Finset ι} {a : α} (ha : a ∈ vertices) (hnot : name a ∉ v) :
    fresh name vertices (insert (name a) v) < fresh name vertices v := by
  unfold fresh
  induction vertices with
  | nil => cases ha
  | cons x xs ih =>
    have hle : fresh name xs (insert (name a) v) ≤ fresh name xs v :=
      fresh_mono (Finset.subset_insert _ _)
    unfold fresh at hle
    by_cases hx : name x = name a
    · rw [List.filter_cons_of_neg (by simp [hx]), List.filter_cons_of_pos (by simpa [hx] using hnot),
        List.length_cons]
      omega
    · have hax : a ∈ xs := by
        rcases List.mem_cons.mp ha with rfl | hax
        · exact absurd rfl hx
        · exact hax
      have hlt := ih hax
      by_cases hv : name x ∈ v
      · rw [List.filter_cons_of_neg (by simp [hv]), List.filter_cons_of_neg (by simp [hv])]
        exact hlt
      · rw [List.filter_cons_of_pos (by simp [hv, hx]), List.filter_cons_of_pos (by simp [hv]),
          List.length_cons, List.length_cons]
        omega

theorem fresh_le (v : Finset ι) : fresh name vertices v ≤ vertices.length :=
  List.length_filter_le _ _

theorem fresh_pos {v : Finset ι} {a : α} (ha : a ∈ vertices) (hnot : name a ∉ v) :
    0 < fresh name vertices v := by
  have := fresh_insert_lt ha hnot
  omega

theorem scan_spec {enter : α → Finset ι → Option (Bool × Finset ι)} {n : Nat}
    (henter : ∀ a ∈ vertices, ∀ v, name a ∉ v → fresh name vertices v ≤ n →
      ∃ r, enter a v = some r ∧ Answers name expand vertices a v r)
    {moves : List (Move α)} (hmoves : ∀ b, .enter b ∈ moves → b ∈ vertices) {v : Finset ι}
    (hfresh : fresh name vertices v ≤ n) :
    ∃ r, scan name enter moves v = some r ∧
      Scanned name expand vertices moves v r := by
  induction moves generalizing v with
  | nil => exact ⟨_, rfl, nofun, fun _ => ⟨.refl v, by simp, by simp⟩⟩
  | cons move moves ih =>
    cases move with
    | goal => exact ⟨_, rfl, fun _ => Or.inl (by simp), nofun⟩
    | enter a =>
      have hrest : ∀ b, .enter b ∈ moves → b ∈ vertices := fun b hb => hmoves b (by simp [hb])
      have ha : a ∈ vertices := hmoves a (by simp)
      have hfound : ∀ {r : Bool × Finset ι} {w : Finset ι},
          Scanned name expand vertices moves w r → r.1 = true →
          .goal ∈ Move.enter a :: moves ∨
            ∃ b, .enter b ∈ Move.enter a :: moves ∧ Reaches expand b := by
        intro r w hs htrue
        rcases hs.found htrue with hgoal | ⟨b, hb, hreach⟩
        · exact Or.inl (by simp [hgoal])
        · exact Or.inr ⟨b, by simp [hb], hreach⟩
      rw [scan]
      by_cases hmem : name a ∈ v
      · obtain ⟨r, hr, hs⟩ := ih hrest hfresh
        rw [if_pos hmem, hr]
        refine ⟨r, rfl, hfound hs, fun hfalse => ?_⟩
        obtain ⟨hext, hgoal, hall⟩ := hs.missed hfalse
        refine ⟨hext, by simpa using hgoal, fun b hb => ?_⟩
        rcases List.mem_cons.mp hb with heq | hb
        · cases heq
          exact hext.subset hmem
        · exact hall b hb
      · rw [if_neg hmem]
        obtain ⟨⟨found, w⟩, hw, hanswer⟩ := henter a ha v hmem hfresh
        rw [hw]
        cases found with
        | true => exact ⟨_, rfl, fun _ => Or.inr ⟨a, by simp, hanswer.found rfl⟩, nofun⟩
        | false =>
          obtain ⟨hext, hentered⟩ := hanswer.missed rfl
          have hle := (fresh_mono hext.subset).trans hfresh
          obtain ⟨r, hr, hs⟩ := ih hrest hle
          refine ⟨r, hr, hfound hs, fun hfalse => ?_⟩
          obtain ⟨hext', hgoal, hall⟩ := hs.missed hfalse
          refine ⟨hext.trans hext', by simpa using hgoal, fun b hb => ?_⟩
          rcases List.mem_cons.mp hb with heq | hb
          · cases heq
            exact hext'.subset hentered
          · exact hall b hb

/-- With as much fuel as there are vertices left to enter, the search answers. -/
theorem search_spec (hinj : ∀ a ∈ vertices, ∀ b ∈ vertices, name a = name b → a = b)
    (hclosed : ∀ a ∈ vertices, ∀ b, .enter b ∈ expand a → b ∈ vertices) {fuel : Nat} :
    ∀ a ∈ vertices, ∀ v, name a ∉ v → fresh name vertices v ≤ fuel →
      ∃ r, search name expand fuel a v = some r ∧ Answers name expand vertices a v r := by
  induction fuel with
  | zero =>
    intro a ha v hnot hfresh
    have := fresh_pos ha hnot
    omega
  | succ fuel ih =>
    intro a ha v hnot hfresh
    have hlt := fresh_insert_lt ha hnot
    obtain ⟨r, hr, hs⟩ := scan_spec ih (hclosed a ha) (v := insert (name a) v) (by omega)
    refine ⟨r, hr, fun htrue => ?_, fun hfalse => ?_⟩
    · rcases hs.found htrue with hgoal | ⟨b, hb, hreach⟩
      · exact ⟨a, .refl, hgoal⟩
      · exact hreach.step hb
    · obtain ⟨hext, hgoal, hall⟩ := hs.missed hfalse
      have hmem : name a ∈ r.2 := hext.subset (Finset.mem_insert_self _ _)
      refine ⟨⟨(Finset.subset_insert _ _).trans hext.subset, fun x hx hmemx hnotx => ?_⟩, hmem⟩
      by_cases hxa : name x = name a
      · obtain rfl := hinj x hx a ha hxa
        exact ⟨hgoal, hall⟩
      · exact hext.done x hx hmemx (by simp [hxa, hnotx])

/-- From no names at all, the search finds the goal exactly when a path leads to it. -/
theorem search_empty (hinj : ∀ a ∈ vertices, ∀ b ∈ vertices, name a = name b → a = b)
    (hclosed : ∀ a ∈ vertices, ∀ b, .enter b ∈ expand a → b ∈ vertices) {a : α} (ha : a ∈ vertices) :
    ∃ r, search name expand vertices.length a ∅ = some r ∧ (r.1 = true ↔ Reaches expand a) := by
  obtain ⟨r, hr, hanswer⟩ := search_spec hinj hclosed a ha ∅ (by simp) (fresh_le _)
  refine ⟨r, hr, hanswer.found, fun hreach => ?_⟩
  by_contra hnot
  obtain ⟨hext, hmem⟩ := hanswer.missed (by simpa using hnot)
  exact not_reaches_of_done ha hmem hclosed (fun x hx hx' => hext.done x hx hx' (by simp)) hreach

end Spec

end DepthFirst
