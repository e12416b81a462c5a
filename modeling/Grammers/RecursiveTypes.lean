import Mathlib.Data.List.Chain
import Grammers.Metadata

namespace Grammers

open DepthFirst Relation

namespace TlGen

open TlParser

theorem lookup_push {ν : Type} (m : ByName ν) (key k : TypeName) (value : ν) :
    ((m.push key value).lookup k).getD [] =
      (m.lookup k).getD [] ++ (if key = k then [value] else []) := by
  by_cases hk : key = k
  · subst hk
    rw [ByName.push, AList.lookup_insert, if_pos rfl, Option.getD_some]
  · rw [ByName.push, AList.lookup_insert_ne (Ne.symm hk), if_neg hk, List.append_nil]

theorem lookup_indexByType (definitions : List Definition) (k : TypeName) :
    ((indexByType definitions).lookup k).getD [] =
      definitions.filter fun d => typeName d.ty = k := by
  have hfold : ∀ (definitions : List Definition) (m : ByName Definition),
      ((definitions.foldl (fun m d => m.push (typeName d.ty) d) m).lookup k).getD [] =
        (m.lookup k).getD [] ++ definitions.filter fun d => typeName d.ty = k := by
    intro definitions
    induction definitions with
    | nil => exact fun m => (List.append_nil _).symm
    | cons d definitions ih =>
      intro m
      rw [List.foldl_cons, ih, lookup_push, List.append_assoc, List.filter_cons]
      split <;> simp_all
  exact (hfold definitions ∅).trans (by simp)

section Graph

variable {definitions : List Definition} {root d : Definition}

theorem mem_typeDefinitions :
    d ∈ typeDefinitions definitions ↔ d ∈ definitions ∧ d.category = .types := by
  simp [typeDefinitions]

/-- The moves of the search, read off the parameters. -/
theorem mem_expand {move : Move Definition} :
    move ∈ expand root (indexByType (typeDefinitions definitions)) d ↔
      ∃ param ∈ d.params, ∃ ty flag, param.ty = .normal ty flag ∧
        ((typeName ty = typeName root.ty ∧ move = .goal) ∨
          (typeName ty ≠ typeName root.ty ∧
            ∃ e ∈ typeDefinitions definitions, typeName e.ty = typeName ty ∧ move = .enter e)) := by
  have hparam : ∀ param : Parameter,
      move ∈ expandParam root (indexByType (typeDefinitions definitions)) param ↔
        ∃ ty flag, param.ty = .normal ty flag ∧
          ((typeName ty = typeName root.ty ∧ move = .goal) ∨
            (typeName ty ≠ typeName root.ty ∧
              ∃ e ∈ typeDefinitions definitions, typeName e.ty = typeName ty ∧ move = .enter e)) := by
    intro param
    unfold expandParam
    split
    next hty => simp [hty]
    next ty flag hty =>
      by_cases hroot : typeName ty = typeName root.ty
      · rw [if_pos (Prod.mk_inj.mp hroot)]
        simp [hty, hroot]
      · rw [if_neg fun h => hroot (Prod.mk_inj.mpr h), lookup_indexByType]
        simp [hty, hroot, and_assoc, eq_comm]
  simp only [expand, List.mem_flatMap, hparam]

theorem mem_of_enter {e : Definition}
    (h : .enter e ∈ expand root (indexByType (typeDefinitions definitions)) d) :
    e ∈ typeDefinitions definitions := by
  obtain ⟨-, -, -, -, -, ⟨-, h⟩ | ⟨-, e', he, -, h⟩⟩ := mem_expand.mp h
  · cases h
  · cases h
    exact he

/-- A step of the search goes along two edges. -/
theorem edges_of_enter {e : Definition} (hd : d ∈ definitions)
    (h : .enter e ∈ expand root (indexByType (typeDefinitions definitions)) d) :
    TransGen (Edge definitions) (.definition d) (.definition e) := by
  obtain ⟨param, hparam, ty, flag, hty, ⟨-, h⟩ | ⟨-, e', he, hname, h⟩⟩ := mem_expand.mp h
  · cases h
  · cases h
    obtain ⟨hmem, hcategory⟩ := mem_typeDefinitions.mp he
    refine .tail (.single (.parameter hd hparam hty)) ?_
    rw [← hname]
    exact .constructor hmem hcategory

/-- Where the search can go from a definition, unless it finds the goal on the way. -/
def Found (definitions : List Definition) (root d : Definition) : Node → Prop
  | .definition e =>
    ReflTransGen
      (fun x y => .enter y ∈ expand root (indexByType (typeDefinitions definitions)) x) d e
  | .type name =>
    ∃ e, ReflTransGen
        (fun x y => .enter y ∈ expand root (indexByType (typeDefinitions definitions)) x) d e ∧
      ∃ param ∈ e.params, ∃ ty flag, param.ty = .normal ty flag ∧ typeName ty = name

theorem found_of_edges {node : Node} (h : TransGen (Edge definitions) (.definition d) node) :
    Reaches (expand root (indexByType (typeDefinitions definitions))) d ∨
      Found definitions root d node := by
  induction h with
  | single hedge =>
    cases hedge with
    | parameter hd hparam hty => exact Or.inr ⟨d, .refl, _, hparam, _, _, hty, rfl⟩
  | tail _ hedge ih =>
    rcases ih with hreach | hfound
    · exact Or.inl hreach
    · cases hedge with
      | parameter hd hparam hty => exact Or.inr ⟨_, hfound, _, hparam, _, _, hty, rfl⟩
      | @constructor e he hcategory =>
        obtain ⟨b, hpath, param, hparam, ty, flag, hty, hname⟩ := hfound
        by_cases hroot : typeName ty = typeName root.ty
        · exact Or.inl ⟨b, hpath, mem_expand.mpr ⟨param, hparam, ty, flag, hty, Or.inl ⟨hroot, rfl⟩⟩⟩
        · have hmem := mem_typeDefinitions.mpr ⟨he, hcategory⟩
          exact Or.inr (hpath.tail (mem_expand.mpr
            ⟨param, hparam, ty, flag, hty, Or.inr ⟨hroot, e, hmem, hname.symm, rfl⟩⟩))

/-- The search finds its goal exactly when the type of the root is reachable from the root. -/
theorem reaches_iff (hroot : root ∈ typeDefinitions definitions) :
    Reaches (expand root (indexByType (typeDefinitions definitions))) root ↔
      TransGen (Edge definitions) (.definition root) (.type (typeName root.ty)) := by
  refine ⟨?_, fun h => ?_⟩
  · rintro ⟨b, hpath, hgoal⟩
    have hb : b ∈ typeDefinitions definitions ∧
        ReflTransGen (Edge definitions) (.definition root) (.definition b) := by
      clear hgoal
      induction hpath with
      | refl => exact ⟨hroot, .refl⟩
      | tail _ hstep ih =>
        exact ⟨mem_of_enter hstep,
          ih.2.trans (edges_of_enter (mem_typeDefinitions.mp ih.1).1 hstep).to_reflTransGen⟩
    obtain ⟨param, hparam, ty, flag, hty, ⟨hname, -⟩ | ⟨-, _, _, _, h⟩⟩ := mem_expand.mp hgoal
    · refine .tail' hb.2 ?_
      rw [← hname]
      exact .parameter (mem_typeDefinitions.mp hb.1).1 hparam hty
    · cases h
  · rcases @found_of_edges _ root _ _ h with hreach | ⟨b, hpath, param, hparam, ty, flag, hty, hname⟩
    · exact hreach
    · exact ⟨b, hpath, mem_expand.mpr ⟨param, hparam, ty, flag, hty, Or.inl ⟨hname, rfl⟩⟩⟩

theorem defSelfReferences_spec (hid : (definitions.map Definition.id).Nodup)
    (hroot : root ∈ typeDefinitions definitions) {fuel : Nat} (hfuel : definitions.length ≤ fuel) :
    ∃ r, defSelfReferences root (indexByType (typeDefinitions definitions)) fuel root ∅ = some r ∧
      (r.1 = true ↔ TransGen (Edge definitions) (.definition root) (.type (typeName root.ty))) := by
  have hinj : ∀ a ∈ typeDefinitions definitions, ∀ b ∈ typeDefinitions definitions,
      a.id = b.id → a = b := fun a ha b hb =>
    List.inj_on_of_nodup_map hid (mem_typeDefinitions.mp ha).1 (mem_typeDefinitions.mp hb).1
  have hclosed : ∀ a ∈ typeDefinitions definitions, ∀ b,
      .enter b ∈ expand root (indexByType (typeDefinitions definitions)) a →
        b ∈ typeDefinitions definitions := fun a _ b hb => mem_of_enter hb
  obtain ⟨r, hr, hiff⟩ := search_empty hinj hclosed hroot
  have hle : (typeDefinitions definitions).length ≤ fuel :=
    (List.length_filter_le _ _).trans hfuel
  refine ⟨r, ?_, hiff.trans (reaches_iff hroot)⟩
  rw [defSelfReferences_eq]
  exact search_mono hle hr

end Graph

theorem selfReferencing_spec {fuel : Nat} {defsWithType : ByName Definition} {p : Definition → Prop}
    {defs : List Definition} (h : ∀ d ∈ defs, ∃ r,
      defSelfReferences d defsWithType fuel d ∅ = some r ∧ (r.1 = true ↔ p d)) (boxed : Finset UInt32) :
    ∃ out, selfReferencing fuel defsWithType defs boxed = some out ∧
      ∀ id, id ∈ out ↔ id ∈ boxed ∨ ∃ d ∈ defs, d.id = id ∧ p d := by
  induction defs generalizing boxed with
  | nil => exact ⟨boxed, rfl, by simp⟩
  | cons d defs ih =>
    have hrest := ih fun e he => h e (List.mem_cons_of_mem _ he)
    obtain ⟨⟨found, visited⟩, hr, hp⟩ := h d List.mem_cons_self
    rw [selfReferencing, hr]
    cases found with
    | true =>
      obtain ⟨out, hout, hmem⟩ := hrest (insert d.id boxed)
      refine ⟨out, hout, fun id => ?_⟩
      simp only [hmem, Finset.mem_insert, List.mem_cons, exists_eq_or_imp, hp.mp rfl, and_true]
      rw [or_assoc, or_left_comm, eq_comm]
    | false =>
      have hnot : ¬p d := fun hpd => Bool.noConfusion (hp.mpr hpd)
      obtain ⟨out, hout, hmem⟩ := hrest boxed
      exact ⟨out, hout, fun id => by simp [hmem, hnot]⟩

theorem mem_foldl_insert {defs : List Definition} {boxed : Finset UInt32} {id : UInt32} :
    id ∈ defs.foldl (fun boxed d => insert d.id boxed) boxed ↔
      id ∈ boxed ∨ ∃ d ∈ defs, d.id = id := by
  induction defs generalizing boxed with
  | nil => simp
  | cons d defs ih =>
    simp only [List.foldl_cons, ih, Finset.mem_insert, List.mem_cons, exists_eq_or_imp]
    rw [or_assoc, or_left_comm, eq_comm]

/-- A definition that holds its own type inline, or that is large. -/
def NeedsBox (definitions : List Definition) (d : Definition) : Prop :=
  TransGen (Edge definitions) (.definition d) (.type (typeName d.ty)) ∨ isBoxedForSize d = true

/-- The metadata of definitions with distinct identifiers. -/
structure Describes (definitions : List Definition) (m : Metadata) : Prop where
  defsWithType : m.defsWithType = indexByType (typeDefinitions definitions)
  unusedFlags : m.unusedFlags = indexUnusedFlags definitions
  boxed : ∀ id, id ∈ m.boxedDefs ↔
    ∃ d ∈ typeDefinitions definitions, d.id = id ∧ NeedsBox definitions d

theorem Describes.unique {definitions : List Definition} {m m' : Metadata}
    (h : Describes definitions m) (h' : Describes definitions m') : m = m' := by
  have hboxed : m.boxedDefs = m'.boxedDefs :=
    Finset.ext fun id => (h.boxed id).trans (h'.boxed id).symm
  cases m
  cases m'
  rw [Metadata.mk.injEq]
  exact ⟨hboxed, h.defsWithType.trans h'.defsWithType.symm, h.unusedFlags.trans h'.unusedFlags.symm⟩

theorem Metadata.new_spec {definitions : List Definition} (hid : (definitions.map Definition.id).Nodup)
    {fuel : Nat} (hfuel : definitions.length ≤ fuel) :
    ∃ m, Metadata.new fuel definitions = some m ∧ Describes definitions m := by
  obtain ⟨out, hout, hmem⟩ := selfReferencing_spec
    (fun d hd => defSelfReferences_spec hid hd hfuel) ∅
  rw [Metadata.new, hout]
  refine ⟨_, rfl, rfl, rfl, fun id => ?_⟩
  rw [mem_foldl_insert, hmem]
  refine ⟨?_, ?_⟩
  · rintro ((hnone | ⟨d, hd, rfl, hself⟩) | ⟨d, hd, rfl⟩)
    · simp at hnone
    · exact ⟨d, hd, rfl, Or.inl hself⟩
    · exact ⟨d, (List.mem_filter.mp hd).1, rfl, Or.inr (List.mem_filter.mp hd).2⟩
  · rintro ⟨d, hd, rfl, hself | hsize⟩
    · exact Or.inl (Or.inr ⟨d, hd, rfl, hself⟩)
    · exact Or.inr ⟨d, List.mem_filter.mpr ⟨hd, hsize⟩, rfl⟩

theorem Describes.isBoxedDef_iff {definitions : List Definition} {m : Metadata}
    (h : Describes definitions m) (hid : (definitions.map Definition.id).Nodup) {d : Definition}
    (hd : d ∈ definitions) :
    m.isBoxedDef d = true ↔ d.category = .types ∧ NeedsBox definitions d := by
  rw [Metadata.isBoxedDef, decide_eq_true_iff, h.boxed]
  refine ⟨?_, fun ⟨hcategory, hneeds⟩ => ⟨d, mem_typeDefinitions.mpr ⟨hd, hcategory⟩, rfl, hneeds⟩⟩
  rintro ⟨e, he, heq, hneeds⟩
  obtain ⟨hmem, hcategory⟩ := mem_typeDefinitions.mp he
  obtain rfl := List.inj_on_of_nodup_map hid hmem hd heq
  exact ⟨hcategory, hneeds⟩

section Cycle

variable {definitions : List Definition}

theorem edges_of_chain {node last : Node} {path : List Node}
    (h : List.IsChain (Edge definitions) (node :: path ++ [last])) :
    TransGen (Edge definitions) node last := by
  induction path generalizing node with
  | nil => exact .single (List.isChain_pair.mp h)
  | cons next path ih =>
    obtain ⟨hedge, hrest⟩ := List.isChain_cons_cons.mp h
    exact .head hedge (ih hrest)

/-- A cycle goes through a definition, and from there back to the type of that definition. -/
theorem IsCycle.definition {cycle : List Node} (h : IsCycle definitions cycle) :
    ∃ d ∈ typeDefinitions definitions, .definition d ∈ cycle ∧
      TransGen (Edge definitions) (.definition d) (.type (typeName d.ty)) := by
  obtain ⟨node, rest, rfl, hchain⟩ := h
  have hback : ∀ {e : Definition}, TransGen (Edge definitions) (.definition e) (.definition e) →
      e ∈ typeDefinitions definitions ∧
        TransGen (Edge definitions) (.definition e) (.type (typeName e.ty)) := by
    intro e hloop
    obtain ⟨b, hpath, hlast⟩ := TransGen.tail'_iff.mp hloop
    cases hlast with
    | constructor he hcategory =>
      refine ⟨mem_typeDefinitions.mpr ⟨he, hcategory⟩, ?_⟩
      rcases ReflTransGen.cases_head hpath with heq | ⟨c, hfirst, hrest⟩
      · cases heq
      · exact .head' hfirst hrest
  cases node with
  | definition d =>
    obtain ⟨hd, hself⟩ := hback (edges_of_chain hchain)
    exact ⟨d, hd, by simp, hself⟩
  | type name =>
    cases rest with
    | nil => cases List.isChain_pair.mp hchain
    | cons next rest =>
      obtain ⟨hedge, hrest⟩ := List.isChain_cons_cons.mp hchain
      cases hedge with
      | @constructor d hd hcategory =>
        obtain ⟨-, hself⟩ := hback ((edges_of_chain hrest).tail (.constructor hd hcategory))
        exact ⟨d, mem_typeDefinitions.mpr ⟨hd, hcategory⟩, by simp, hself⟩

end Cycle

/-- Every cycle of what types and definitions hold inline goes through a boxed definition, and what
is boxed for another reason than its size holds its own type. -/
theorem recursive_types_are_boxed (definitions : List Definition)
    (hid : (definitions.map Definition.id).Nodup) :
    ∃ metadata, (∀ fuel, definitions.length ≤ fuel → Metadata.new fuel definitions = some metadata) ∧
      (∀ cycle, IsCycle definitions cycle →
        ∃ d ∈ definitions, .definition d ∈ cycle ∧ metadata.isBoxedDef d = true) ∧
      ∀ d ∈ definitions, metadata.isBoxedDef d = true → isBoxedForSize d = false →
        TransGen (Edge definitions) (.definition d) (.type (typeName d.ty)) := by
  obtain ⟨metadata, -, hdescribes⟩ := Metadata.new_spec hid le_rfl
  refine ⟨metadata, fun fuel hfuel => ?_, fun cycle hcycle => ?_, fun d hd hboxed hsize => ?_⟩
  · obtain ⟨m, hnew, hm⟩ := Metadata.new_spec hid hfuel
    rw [hnew, hm.unique hdescribes]
  · obtain ⟨d, hd, hmem, hself⟩ := hcycle.definition
    obtain ⟨hd', hcategory⟩ := mem_typeDefinitions.mp hd
    exact ⟨d, hd', hmem, (hdescribes.isBoxedDef_iff hid hd').mpr ⟨hcategory, Or.inl hself⟩⟩
  · rcases ((hdescribes.isBoxedDef_iff hid hd).mp hboxed).2 with hself | hlarge
    · exact hself
    · rw [hsize] at hlarge
      cases hlarge

def textType (name : String) : Ty := ⟨[], name.toList, false, false, none⟩

/-- A text that holds another text. -/
def nestedText : Definition where
  nameSpace := []
  name := "textBold".toList
  id := 0x6724abc4
  params := [⟨"text".toList, .normal (textType "RichText") none⟩]
  ty := textType "RichText"
  category := .types

theorem recursive_types_are_boxed_nested :
    ∃ metadata, Metadata.new 1 [nestedText] = some metadata ∧ metadata.isBoxedDef nestedText = true := by
  obtain ⟨metadata, hnew, hcycles, -⟩ := recursive_types_are_boxed [nestedText] (by simp)
  have hcycle : IsCycle [nestedText] [.type (typeName nestedText.ty), .definition nestedText] :=
    ⟨_, _, rfl, .cons_cons (.constructor (by simp) rfl)
      (List.isChain_pair.mpr (.parameter (by simp) (List.mem_singleton.mpr rfl) rfl))⟩
  obtain ⟨d, hd, -, hboxed⟩ := hcycles _ hcycle
  obtain rfl := List.mem_singleton.mp hd
  exact ⟨metadata, hnew 1 le_rfl, hboxed⟩

end TlGen

end Grammers
