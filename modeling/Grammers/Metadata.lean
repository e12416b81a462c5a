import Mathlib.Data.List.AList
import Grammers.DepthFirst
import Grammers.TlDefinition

namespace Grammers

open DepthFirst

namespace TlGen

open TlParser

/-- Definitions boxed although they do not recurse. -/
def boxedForSize : List Text :=
  ["message".toList, "messageService".toList, "ephemeralMessage".toList]

abbrev TypeName : Type := List Text × Text

def typeName (ty : Ty) : TypeName := (ty.nameSpace, ty.name)

abbrev ByName (ν : Type) : Type := AList fun _ : TypeName => List ν

def ByName.push {ν : Type} (m : ByName ν) (key : TypeName) (value : ν) : ByName ν :=
  m.insert key ((m.lookup key).getD [] ++ [value])

structure Metadata where
  boxedDefs : Finset UInt32
  defsWithType : ByName Definition
  unusedFlags : ByName Parameter

/-- A parameter of flags that no other parameter of the definition depends on. -/
def isUnused (d : Definition) (pf : Parameter) : Bool :=
  match pf.ty with
  | .flags =>
    !d.params.any fun pn =>
      match pn.ty with
      | .normal _ (some flag) => flag.name = pf.name
      | _ => false
  | .normal _ _ => false

/-- The constructors of one type, until one of them references the type of the root. -/
def scanDefs (enter : Definition → Finset UInt32 → Option (Bool × Finset UInt32)) :
    List Definition → Finset UInt32 → Option (Bool × Finset UInt32)
  | [], visited => some (false, visited)
  | d :: defs, visited =>
    if d.id ∈ visited then scanDefs enter defs visited
    else
      match enter d visited with
      | none => none
      | some (true, visited) => some (true, visited)
      | some (false, visited) => scanDefs enter defs visited

def scanParams (root : Definition) (defsWithType : ByName Definition)
    (enter : Definition → Finset UInt32 → Option (Bool × Finset UInt32)) :
    List Parameter → Finset UInt32 → Option (Bool × Finset UInt32)
  | [], visited => some (false, visited)
  | param :: params, visited =>
    match param.ty with
    | .flags => scanParams root defsWithType enter params visited
    | .normal ty _ =>
      if ty.nameSpace = root.ty.nameSpace ∧ ty.name = root.ty.name then some (true, visited)
      else
        match scanDefs enter ((defsWithType.lookup (typeName ty)).getD []) visited with
        | none => none
        | some (true, visited) => some (true, visited)
        | some (false, visited) => scanParams root defsWithType enter params visited

/-- Whether the parameters of a definition lead to the type of the root; it has no answer when the
fuel does not suffice. -/
def defSelfReferences (root : Definition) (defsWithType : ByName Definition) :
    Nat → Definition → Finset UInt32 → Option (Bool × Finset UInt32)
  | 0, _, _ => none
  | fuel + 1, check, visited =>
    scanParams root defsWithType (defSelfReferences root defsWithType fuel) check.params
      (insert check.id visited)

def typeDefinitions (definitions : List Definition) : List Definition :=
  definitions.filter fun d => d.category = .types

def indexByType (definitions : List Definition) : ByName Definition :=
  definitions.foldl (fun m d => m.push (typeName d.ty) d) ∅

def indexUnusedFlags (definitions : List Definition) : ByName Parameter :=
  definitions.foldl
    (fun m d => (d.params.filter (isUnused d)).foldl (fun m pf => m.push (d.nameSpace, d.name) pf) m) ∅

/-- The identifiers of the definitions that reference their own type. -/
def selfReferencing (fuel : Nat) (defsWithType : ByName Definition) :
    List Definition → Finset UInt32 → Option (Finset UInt32)
  | [], boxed => some boxed
  | d :: defs, boxed =>
    match defSelfReferences d defsWithType fuel d ∅ with
    | none => none
    | some (true, _) => selfReferencing fuel defsWithType defs (insert d.id boxed)
    | some (false, _) => selfReferencing fuel defsWithType defs boxed

def isBoxedForSize (d : Definition) : Bool := d.nameSpace.isEmpty && boxedForSize.contains d.name

namespace Metadata

def new (fuel : Nat) (definitions : List Definition) : Option Metadata :=
  match selfReferencing fuel (indexByType (typeDefinitions definitions))
      (typeDefinitions definitions) ∅ with
  | none => none
  | some boxed =>
    some
      { boxedDefs := ((typeDefinitions definitions).filter isBoxedForSize).foldl
          (fun boxed d => insert d.id boxed) boxed
        defsWithType := indexByType (typeDefinitions definitions)
        unusedFlags := indexUnusedFlags definitions }

def isBoxedDef (m : Metadata) (d : Definition) : Bool := d.id ∈ m.boxedDefs

end Metadata

/-! What a type and a definition hold inline. -/

inductive Node where
  | type (name : TypeName)
  | definition (d : Definition)

inductive Edge (definitions : List Definition) : Node → Node → Prop
  | constructor {d : Definition} (hd : d ∈ definitions) (hcategory : d.category = .types) :
    Edge definitions (.type (typeName d.ty)) (.definition d)
  | parameter {d : Definition} {param : Parameter} {ty : Ty} {flag : Option Flag}
    (hd : d ∈ definitions) (hparam : param ∈ d.params) (hty : param.ty = .normal ty flag) :
    Edge definitions (.definition d) (.type (typeName ty))

/-- Nodes each of which leads to the next, and the last to the first. -/
def IsCycle (definitions : List Definition) (cycle : List Node) : Prop :=
  ∃ node rest, cycle = node :: rest ∧ List.IsChain (Edge definitions) (cycle ++ [node])

/-! The search over definitions is the depth-first search over what they hold. -/

section Search

variable (root : Definition) (defsWithType : ByName Definition)

def expandParam (param : Parameter) : List (Move Definition) :=
  match param.ty with
  | .flags => []
  | .normal ty _ =>
    if ty.nameSpace = root.ty.nameSpace ∧ ty.name = root.ty.name then [.goal]
    else ((defsWithType.lookup (typeName ty)).getD []).map .enter

def expand (d : Definition) : List (Move Definition) :=
  d.params.flatMap (expandParam root defsWithType)

theorem scanDefs_eq (enter : Definition → Finset UInt32 → Option (Bool × Finset UInt32))
    (defs : List Definition) (visited : Finset UInt32) :
    scanDefs enter defs visited = scan Definition.id enter (defs.map .enter) visited := by
  induction defs generalizing visited with
  | nil => rfl
  | cons d defs ih =>
    rw [scanDefs, List.map_cons, scan, ih]
    split
    · rfl
    · split <;> simp only [*]

theorem scanParams_eq (enter : Definition → Finset UInt32 → Option (Bool × Finset UInt32))
    (params : List Parameter) (visited : Finset UInt32) :
    scanParams root defsWithType enter params visited =
      scan Definition.id enter (params.flatMap (expandParam root defsWithType)) visited := by
  induction params generalizing visited with
  | nil => rfl
  | cons param params ih =>
    rw [scanParams, List.flatMap_cons, scan_append, expandParam]
    split
    next => exact ih visited
    next =>
      split
      next => rfl
      next =>
        rw [scanDefs_eq]
        split <;> simp only [*]

theorem defSelfReferences_eq (fuel : Nat) (check : Definition) (visited : Finset UInt32) :
    defSelfReferences root defsWithType fuel check visited =
      search Definition.id (expand root defsWithType) fuel check visited := by
  induction fuel generalizing check visited with
  | zero => rfl
  | succ fuel ih =>
    have hfun : defSelfReferences root defsWithType fuel =
        search Definition.id (expand root defsWithType) fuel :=
      funext fun check => funext fun visited => ih check visited
    rw [defSelfReferences, search, scanParams_eq, hfun, expand]

end Search

end TlGen

end Grammers
