import MoveCodec.Manifest.Parse
import MoveCodec.Types.Expression
import MoveCodec.Types.Framework

/-!
# Resolved packages

Resolving a manifest gives its declarations indices, reads their type expressions and enters them
into a registry beside the framework. Indices are given out before any expression is read, so
declarations may refer to each other in any order.
-/
namespace MoveCodec

structure PublicFunction where
  name : String
  params : List MoveType
  results : List MoveType

/-- A package with its registry. Definitions stand in the order of their declarations. -/
structure Package where
  registry : Registry
  home : ModuleId
  structs : List StructDef
  enums : List EnumDef
  errors : List StructDef
  events : List StructDef
  functions : List PublicFunction

/-- The declared structs with the key ability. -/
def Package.objects (p : Package) : List StructDef := p.structs.filter (·.isObject)

namespace Manifest

structure Local where
  index : UInt16
  isEnum : Bool
  arity : Int

structure Scope where
  registry : Registry
  home : ModuleId
  locals : List (String × Local)

namespace Scope

/-- Framework types that have a short name. -/
def shortNames : List (String × ModuleId) :=
  [("UID", .object), ("ID", .object), ("TxContext", .txContext), ("String", .string)]

def checkArity (name : String) (arity : Int) (args : List MoveType) : Except Error Unit :=
  if (args.length : Int) = arity then .ok ()
  else .error (.invalidInput .manifest name
    ("expects " ++ toString arity ++ " type arguments, got " ++ toString args.length))

variable (s : Scope)

def ofPackage (name : String) (args : List MoveType) : Except Error MoveType :=
  match s.locals.lookup name with
  | none => .error (.notFound .manifest "type" name)
  | some d => do
    checkArity name d.arity args
    let id : DefId := ⟨s.home, d.index⟩
    return if d.isEnum then .enum id args else .struct id args

def ofModule (home : ModuleId) (name : String) (args : List MoveType) : Except Error MoveType :=
  match s.registry.structNamed? home name with
  | some d => do
    checkArity name d.arity args
    return d.type args
  | none =>
    match s.registry.enumNamed? home name with
    | some d => .ok (d.type args)
    | none => .error (.notFound .manifest "type" (home.render ++ "::" ++ name))

def splitColons : List Char → List (List Char)
  | [] => [[]]
  | ':' :: ':' :: cs => [] :: splitColons cs
  | c :: cs =>
    match splitColons cs with
    | part :: parts => (c :: part) :: parts
    | [] => [[c]]

/-- The parts of a name `address::module::Name`. -/
def qualified? (name : String) : Option (String × String × String) :=
  match (splitColons name.toList).map String.ofList with
  | [a, m, n] => if a = "" ∨ m = "" ∨ n = "" then none else some (a, m, n)
  | _ => none

/-- The meaning of a name: a qualified name says its module; a bare one is a declaration of the
package first, then a short name of the framework, then a byte string. -/
def resolve : Expression.Resolver := fun name args =>
  match qualified? name with
  | some (address, module, name) => do
    let home : ModuleId := ⟨← AccountAddress.parse address, module⟩
    if home = s.home then s.ofPackage name args else s.ofModule home name args
  | none =>
    if (s.locals.lookup name).isSome then s.ofPackage name args
    else match shortNames.lookup name with
      | some home => s.ofModule home name args
      | none =>
        if name.startsWith "Bytes" then s.ofModule .bytes name args
        else .error (.notFound .manifest "type" name)

def abilities (owner : String) (names : List String) : Except Error Abilities :=
  names.foldlM (fun set name =>
    match Ability.parse? name with
    | some a => .ok (set.insert a)
    | none => .error (.prepend owner
        (.invalidInput .manifest "" ("unknown ability " ++ Text.quote name)))) {}

def fields (owner : String) (decls : List FieldDecl) : Except Error (List Field) :=
  decls.mapM fun f => do
    let type ← within (owner ++ "." ++ f.name) (Expression.parse f.type (some s.resolve))
    return { name := f.name, type }

def idOf (name : String) : DefId :=
  ⟨s.home, ((s.locals.lookup name).map (·.index)).getD 0⟩

def structDef (d : StructDecl) (role : StructRole) (indexed : Int := 0) :
    Except Error StructDef := do
  let abilities ← abilities d.name d.abilities
  let fields ← s.fields d.name d.fields
  return { id := s.idOf d.name, name := d.name, fields, arity := d.arity, abilities, role, indexed }

def enumDef (d : EnumDecl) : Except Error EnumDef := do
  let abilities ← abilities d.name d.abilities
  let plain := d.plain.map fun name => ({ name } : Variant)
  let variants ← d.variants.mapM fun v => do
    let fields ← s.fields (d.name ++ "::" ++ v.name) v.fields
    return ({ name := v.name, fields } : Variant)
  return { id := s.idOf d.name, name := d.name, variants := plain ++ variants, arity := d.arity,
           abilities }

/-- The types of a function, which cannot be generic. -/
def concrete (function : String) (exprs : List String) : Except Error (List MoveType) :=
  exprs.mapM fun source => do
    let t ← within function (Expression.parse source (some s.resolve))
    unless t.isConcrete do
      throw (.report { phase := some .manifest, kind := some .foundTypeParameter,
                       path := [function], subject := source,
                       detail := "function signatures must be concrete" })
    return t

def function (d : FunctionDecl) : Except Error PublicFunction := do
  let params ← s.concrete d.name d.params
  let results ← s.concrete d.name d.results
  return { name := d.name, params, results }

end Scope

/-- The declared names with their indices, counted from `first` in the order structs, enums,
errors, events. -/
def locals (m : Manifest) (first : UInt16) : List (String × Local) :=
  let decls : List (String × Bool × Int) :=
    m.structs.map (fun d => (d.name, false, d.arity)) ++
    m.enums.map (fun d => (d.name, true, d.arity)) ++
    m.errors.map (fun d => (d.name, false, 0)) ++
    m.events.map (fun d => (d.name, false, 0))
  decls.zipIdx.map fun ((name, isEnum, arity), i) =>
    (name, { index := first + UInt16.ofNat i, isEnum, arity })

def addStructs (r : Registry) : List StructDef → Except Error (List StructDef × Registry)
  | [] => .ok ([], r)
  | d :: ds => do
    let (d, r) ← r.addStruct d
    let (ds, r) ← addStructs r ds
    return (d :: ds, r)

def resolve (m : Manifest) : Except Error Package := do
  let address ← within "package" (AccountAddress.parse m.package.address)
  let (outcome, registry) := Framework.register {}
  outcome
  let home : ModuleId := ⟨address, m.package.module⟩
  let s : Scope := { registry, home, locals := m.locals (registry.freeIndex home) }
  let structs ← m.structs.mapM (s.structDef · .plain)
  let enums ← m.enums.mapM s.enumDef
  let errors ← m.errors.mapM fun d => s.structDef { d with arity := 0 } .error
  let events ← m.events.mapM fun d =>
    s.structDef { name := d.name, fields := d.fields } .event d.indexed
  let (structs, registry) ← addStructs registry structs
  let registry ← enums.foldlM Registry.addEnum registry
  let (errors, registry) ← addStructs registry errors
  let (events, registry) ← addStructs registry events
  let functions ← m.functions.mapM { s with registry }.function
  return { registry := registry.freeze, home, structs, enums, errors, events, functions }

end Manifest

end MoveCodec
