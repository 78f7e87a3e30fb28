import MoveCodec.Types.Definition
import MoveCodec.Types.Substitution

/-!
# Registry

The definitions a package can refer to. Definitions are added until the registry is frozen; an
accepted definition is never replaced. Structs and enums have separate tables.
-/
namespace MoveCodec

/-- Definitions in the order in which they were added. -/
structure Registry where
  structs : List StructDef := []
  enums : List EnumDef := []
  frozen : Bool := false

namespace Registry

def freeze (r : Registry) : Registry := { r with frozen := true }

def findStruct? (r : Registry) (id : DefId) : Option StructDef :=
  r.structs.find? (·.id == id)

def findEnum? (r : Registry) (id : DefId) : Option EnumDef :=
  r.enums.find? (·.id == id)

/-- Refuses the first field that mentions a parameter the definition does not have. -/
def checkFields (arity : Int) (owner : String) (fields : List Field) : Except Error Unit :=
  fields.forM fun f =>
    match f.type.unboundParam? arity with
    | some i => .error (.prepend (owner ++ "." ++ f.name) (.outOfBounds .types [] i.toNat arity))
    | none => .ok ()

/-- The most topics an event can publish beside its own. -/
def maxIndexed : Int := 3

/-- Adds a struct. `claim` is the number of the tag the definition says it has, 0 for none. -/
def addStruct (r : Registry) (d : StructDef) (claim : Nat := 0) :
    Except Error (StructDef × Registry) := do
  if r.frozen then throw (.invalidInput .types d.name "registry is frozen")
  if (r.findStruct? d.id).isSome then
    throw (.duplicate .types d.name
      ("struct index " ++ toString d.id.index.toNat ++ " already defined in " ++ d.id.home.render))
  let tag := NativeTag.reserved d.id.home d.name
  if claim ≠ 0 ∧ claim ≠ tag.code then
    throw (.report { phase := some .types, kind := some .invalidFrameworkType,
                     subject := d.id.home.render ++ "::" ++ d.name,
                     detail := NativeTag.nameOf claim ++ " is reserved for the framework" })
  checkFields d.arity d.name d.fields
  if d.role = .event ∧ (d.indexed < 0 ∨ maxIndexed < d.indexed ∨ d.fields.length < d.indexed) then
    throw (.invalidInput .types d.name
      ("events support at most 3 indexed fields, got " ++ toString d.indexed))
  let d := { d with tag }
  return (d, { r with structs := r.structs ++ [d] })

def addEnum (r : Registry) (d : EnumDef) : Except Error Registry := do
  if r.frozen then throw (.invalidInput .types d.name "registry is frozen")
  if (r.findEnum? d.id).isSome then
    throw (.duplicate .types d.name
      ("enum index " ++ toString d.id.index.toNat ++ " already defined in " ++ d.id.home.render))
  if d.variants.isEmpty then throw (.invalidInput .types d.name "enum has no variants")
  d.variants.forM fun v => checkFields d.arity (d.name ++ "::" ++ v.name) v.fields
  return { r with enums := r.enums ++ [d] }

/-- Type arguments must be as many as the definition has parameters. -/
def checkArity (name : String) (arity : Int) (args : List MoveType) : Except Error Unit :=
  if (args.length : Int) = arity then .ok ()
  else .error (.invalidInput .types name
    ("expected " ++ toString arity ++ " type arguments, got " ++ toString args.length))

def structOf (r : Registry) (id : DefId) (args : List MoveType) : Except Error StructDef :=
  match r.findStruct? id with
  | none => .error (.notFound .types "struct" (MoveType.render (.struct id args)))
  | some d => do
    checkArity d.name d.arity args
    return d

def enumOf (r : Registry) (id : DefId) (args : List MoveType) : Except Error EnumDef :=
  match r.findEnum? id with
  | none => .error (.notFound .types "enum" (MoveType.render (.enum id args)))
  | some d => do
    checkArity d.name d.arity args
    return d

def instantiate (d : StructDef) (args : List MoveType) : Except Error (List Field) :=
  if args.isEmpty then .ok d.fields
  else d.fields.mapM fun f => do
    let type ← within (d.name ++ "." ++ f.name) (f.type.substitute args)
    return { f with type }

def fields (r : Registry) (id : DefId) (args : List MoveType) : Except Error (List Field) := do
  instantiate (← r.structOf id args) args

def structNamed? (r : Registry) (home : ModuleId) (name : String) : Option StructDef :=
  r.structs.find? fun d => d.id.home == home && d.name == name

def enumNamed? (r : Registry) (home : ModuleId) (name : String) : Option EnumDef :=
  r.enums.find? fun d => d.id.home == home && d.name == name

def freeIndex (r : Registry) (home : ModuleId) : UInt16 :=
  (r.structs.map (·.id) ++ r.enums.map (·.id)).foldl
    (fun next id => if id.home = home ∧ next ≤ id.index then id.index + 1 else next) 0

mutual

/-- The text of a type by the names of its definitions; a type without a definition is shown as
`MoveType.render` shows it. -/
def typeName (r : Registry) : MoveType → String
  | .vector e => "vector<" ++ r.typeName e ++ ">"
  | .struct id args =>
    match r.findStruct? id with
    | some d => d.name ++ MoveType.bracketed (r.typeNames args)
    | none => MoveType.render (.struct id args)
  | .enum id args =>
    match r.findEnum? id with
    | some d => d.name ++ MoveType.bracketed (r.typeNames args)
    | none => MoveType.render (.enum id args)
  | .ref m t => (if m then "&mut " else "&") ++ r.typeName t
  | t => t.render

def typeNames (r : Registry) : List MoveType → List String
  | [] => []
  | t :: ts => r.typeName t :: r.typeNames ts

end

def tagOf (r : Registry) : MoveType → NativeTag
  | .struct id _ => ((r.findStruct? id).map (·.tag)).getD .none
  | _ => .none

/-- Offsets of blocks that lie one after another from `start`, and the end of the last. -/
def placeFrom (start : UInt32) : List UInt32 → List UInt32 × UInt32
  | [] => ([], start)
  | n :: ns =>
    let (offsets, stop) := placeFrom (start + n) ns
    (start :: offsets, stop)

@[simp] theorem length_placeFrom (start : UInt32) (ns : List UInt32) :
    (placeFrom start ns).1.length = ns.length := by
  induction ns generalizing start with
  | nil => rfl
  | cons n ns ih => simp [placeFrom, ih]

/-- Offsets of values that lie one after another by stack size, and the total size. -/
def recordPlaces (ts : List MoveType) : Except Error (List UInt32 × UInt32) :=
  placeFrom 0 <$> ts.mapM MoveType.stackSize

/-- Offsets of the fields in the record of a struct type, and the record's size. -/
def fieldPlaces (r : Registry) (id : DefId) (args : List MoveType) :
    Except Error (List UInt32 × UInt32) := do
  let fs ← r.fields id args
  placeFrom 0 <$> fs.mapM fun f => within f.name f.type.stackSize

/-- Size of the heap block behind a value; 0 for values that are held in registers. -/
def heapSize (r : Registry) (t : MoveType) : Except Error UInt32 :=
  match t with
  | .bool | .int .w8 | .int .w16 | .int .w32 | .int .w64 => .ok 0
  | .int .w128 => .ok 16
  | .int .w256 | .address | .signer => .ok 32
  | .vector _ => .ok 8
  | .enum .. => .ok 4
  | .ref _ e => e.stackSize
  | .struct id args => do
    let d ← r.structOf id args
    if d.tag.code = 5 then return 32
    return (← r.fieldPlaces id args).2
  | .param i => .error (.typeParameter .types [] i.toNat)

end Registry

end MoveCodec
