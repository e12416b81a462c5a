import Mathlib.Data.Char
import Mathlib.Data.List.Lex
import Mathlib.Data.List.Sort
import Grammers.InferId
import Grammers.Radix

namespace Grammers

open TextSearch

namespace TlParser

inductive ParamParseError where
  | empty
  | invalidFlag
  | invalidGeneric
  | typeDef (name : Text)
  | missingDef
  | notImplemented
  deriving DecidableEq

inductive ParseError where
  | empty
  | invalidId (e : Radix.IntErrorKind)
  | invalidParam (e : ParamParseError)
  | missingName
  | missingType
  | notImplemented
  | unknownSeparator
  deriving DecidableEq

inductive Category where
  | types
  | functions
  deriving DecidableEq

structure Flag where
  name : Text
  index : Nat
  deriving DecidableEq

/-- The type of a definition or of a parameter. -/
structure Ty where
  nameSpace : List Text
  name : Text
  bare : Bool
  genericRef : Bool
  genericArg : Option Ty

inductive ParameterType where
  | flags
  | normal (ty : Ty) (flag : Option Flag)

structure Parameter where
  name : Text
  ty : ParameterType

structure Definition where
  nameSpace : List Text
  name : Text
  id : UInt32
  params : List Parameter
  ty : Ty
  category : Category

def qualified (nameSpace : List Text) (name : Text) : Text := nameSpace.flatMap (· ++ ['.']) ++ name

/-- The components of `ns1.ns2.name`. -/
def components (name : Text) : List Text × Text :=
  match rsplitOnce (· = '.') name with
  | some (nameSpace, name) => (nameSpace.splitOn '.', name)
  | none => ([], name)

namespace Ty

/-- A type without its generic argument. -/
def displayName (nameSpace : List Text) (name : Text) (genericRef : Bool) : Text :=
  nameSpace.flatMap (· ++ ['.']) ++ (if genericRef then ['!'] else []) ++ name

def display : Ty → Text
  | ⟨nameSpace, name, _, genericRef, none⟩ => displayName nameSpace name genericRef
  | ⟨nameSpace, name, _, genericRef, some arg⟩ =>
    displayName nameSpace name genericRef ++ '<' :: display arg ++ ['>']

/-- The generic references in a type, the outer ones first. -/
def findGenericRefs : Ty → List Text
  | ⟨_, name, _, genericRef, none⟩ => if genericRef then [name] else []
  | ⟨_, name, _, genericRef, some arg⟩ => (if genericRef then [name] else []) ++ findGenericRefs arg

/-- A type with its generic argument. -/
def ofName (name : Text) (genericRef : Bool) (genericArg : Option Ty) :
    Except ParamParseError Ty :=
  let (nameSpace, name) := components name
  match nameSpace.any List.isEmpty, name.head? with
  | false, some first => .ok ⟨nameSpace, name, first.isLower, genericRef, genericArg⟩
  | _, _ => .error .empty

def stripReference (ty : Text) : Text × Bool :=
  match ty.dropPrefix? ['!'] with
  | some ty => (ty, true)
  | none => (ty, false)

def fromStr (ty : Text) : Except ParamParseError Ty :=
  match _h : splitOnce (· = '<') (stripReference ty).1 with
  | some (name, genericArg) =>
    match _h' : genericArg.dropSuffix? ['>'] with
    | some genericArg =>
      match fromStr genericArg with
      | .ok arg => ofName name (stripReference ty).2 (some arg)
      | .error e => .error e
    | none => .error .invalidGeneric
  | none => ofName (stripReference ty).1 (stripReference ty).2 none
termination_by ty.length
decreasing_by
  obtain ⟨s, -, hty, -⟩ := splitOnce_eq_some _h
  obtain ⟨s', harg, -⟩ := List.dropSuffix?_eq_some_iff.mp _h'
  have hstrip : (stripReference ty).1.length ≤ ty.length := by
    unfold stripReference
    split
    next ty' hfront =>
      obtain ⟨p, hp, -⟩ := List.dropPrefix?_eq_some_iff.mp hfront
      rw [hp]
      simp
    next => exact le_rfl
  rw [hty, harg] at hstrip
  simp only [List.length_append, List.length_cons] at hstrip
  omega

end Ty

namespace Flag

def display (flag : Flag) : Text := flag.name ++ '.' :: Nat.toDigits 10 flag.index

def fromStr (ty : Text) : Except ParamParseError Flag :=
  match splitOnce (· = '.') ty with
  | some (name, index) =>
    match Radix.parse 10 (2 ^ 64) index with
    | .ok index => .ok ⟨name, index⟩
    | .error _ => .error .invalidFlag
  | none => .error .invalidFlag

end Flag

namespace ParameterType

def display : ParameterType → Text
  | .flags => ['#']
  | .normal ty none => ty.display
  | .normal ty (some flag) => flag.display ++ '?' :: ty.display

def fromStr (ty : Text) : Except ParamParseError ParameterType :=
  if ty = [] then .error .empty
  else if ty = ['#'] then .ok .flags
  else match splitOnce (· = '?') ty with
    | some (flag, ty) => do
      let flag ← Flag.fromStr flag
      let ty ← Ty.fromStr ty
      .ok (.normal ty (some flag))
    | none => do
      let ty ← Ty.fromStr ty
      .ok (.normal ty none)

end ParameterType

namespace Parameter

def display (param : Parameter) : Text := param.name ++ ':' :: param.ty.display

def fromStr (param : Text) : Except ParamParseError Parameter :=
  match param.dropPrefix? ['{'] with
  | some rest =>
    match rest.dropSuffix? ":Type\x7d".toList with
    | some name => .error (.typeDef name)
    | none => .error .missingDef
  | none =>
    match splitOnce (· = ':') param with
    | none => .error .notImplemented
    | some (name, ty) =>
      if name = [] || ty = [] then .error .empty
      else do
        let ty ← ParameterType.fromStr ty
        .ok ⟨name, ty⟩

/-- The generic references of a parameter that is not for flags. -/
def genericRefs (param : Parameter) : List Text :=
  match param.ty with
  | .flags => []
  | .normal ty _ => ty.findGenericRefs

end Parameter

/-- What the parameters were parsed to, with the names of generic types and of flags so far. -/
def parseParams : List Text → List Text → List Text → Except ParseError (List Parameter × List Text)
  | [], typeDefs, _ => .ok ([], typeDefs)
  | token :: tokens, typeDefs, flagDefs =>
    match Parameter.fromStr token with
    | .error (.typeDef name) => parseParams tokens (typeDefs ++ [name]) flagDefs
    | .error .notImplemented => .error .notImplemented
    | .error e => .error (.invalidParam e)
    | .ok ⟨name, .flags⟩ => do
      let (params, typeDefs) ← parseParams tokens typeDefs (flagDefs ++ [name])
      .ok (⟨name, .flags⟩ :: params, typeDefs)
    | .ok ⟨name, .normal ty flag⟩ =>
      if ty.genericRef && !typeDefs.contains ty.name then .error (.invalidParam .missingDef)
      else if flag.any fun flag => !flagDefs.contains flag.name then
        .error (.invalidParam .missingDef)
      else do
        let (params, typeDefs) ← parseParams tokens typeDefs flagDefs
        .ok (⟨name, .normal ty flag⟩ :: params, typeDefs)

/-- Equal neighbours are left out. -/
def dedup : List Text → List Text
  | [] => []
  | [a] => [a]
  | a :: b :: rest => if a = b then dedup (b :: rest) else a :: dedup (b :: rest)

namespace Definition

/-- The generic types that are defined early: those that a parameter refers to. -/
def typeDefs (d : Definition) : List Text :=
  dedup ((d.params.flatMap Parameter.genericRefs).mergeSort fun a b => decide (a ≤ b))

def display (d : Definition) : Text :=
  qualified d.nameSpace d.name ++ '#' :: Nat.toDigits 16 d.id.toNat ++
    d.typeDefs.flatMap (fun typeDef => ' ' :: '{' :: typeDef ++ ":Type\x7d".toList) ++
    d.params.flatMap (fun param => ' ' :: param.display) ++ " = ".toList ++ d.ty.display

/-- The name, and what follows it. -/
def splitName (left : Text) : Text × Text :=
  match splitOnce isWhiteSpace left with
  | some (name, middle) => (trimEnd name, trimStart middle)
  | none => (left, [])

def splitId (name : Text) : Text × Option Text :=
  match splitOnce (· = '#') name with
  | some (name, id) => (trimEnd name, some (trimStart id))
  | none => (name, none)

def parseId (crc32 : Bytes → UInt32) (definition : Text) : Option Text → Except ParseError UInt32
  | some id =>
    match Radix.parse 16 (2 ^ 32) id with
    | .ok id => .ok (UInt32.ofNat id)
    | .error e => .error (.invalidId e)
  | none => .ok (inferId crc32 definition)

/-- What is left and right of the first sign of equality. -/
def splitDefinition (definition : Text) : Option (Text × Text) :=
  (splitOnce (· = '=') definition).map fun (left, ty) => (trim left, trim ty)

def fromStr (crc32 : Bytes → UInt32) (definition : Text) : Except ParseError Definition :=
  if trim definition = [] then .error .empty
  else match splitDefinition definition with
    | none => .error .missingType
    | some (left, ty) =>
      match Ty.fromStr ty with
      | .error _ => .error .missingType
      | .ok ty =>
        let (name, middle) := splitName left
        let (name, id) := splitId name
        let (nameSpace, name) := components name
        if nameSpace.any List.isEmpty || name = [] then .error .missingName
        else do
          let id ← parseId crc32 definition id
          let (params, typeDefs) ← parseParams (splitWhitespace middle) [] []
          let ty := if typeDefs.contains ty.name then { ty with genericRef := true } else ty
          .ok ⟨nameSpace, name, id, params, ty, .types⟩

end Definition

end TlParser

end Grammers
