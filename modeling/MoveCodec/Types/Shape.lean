import MoveCodec.Types.Registry

/-!
# Shapes

The shape of a type is the type with its definitions filled in: every struct carries the shapes of
its fields under its type arguments. Faults of the definitions become leaves, so that a shape
exists for every type and each reader of it decides which fault counts. A definition that occurs
within its own fields ends in an `endless` leaf; `Registry.shape` is finite without any assumption
on the registry.
-/
namespace MoveCodec

mutual

inductive Shape where
  | bool
  | int (width : IntWidth)
  | address
  | signer
  | param (index : UInt16)
  | vector (elem : Shape)
  | ref (mutable : Bool) (target : Shape)
  | enum (d : EnumDef) (args : List MoveType)
  /-- A struct whose layout the virtual machine knows. -/
  | tagged (d : StructDef) (args : List MoveType)
  | struct (d : StructDef) (args : List MoveType) (fields : FieldShapes)
  /-- A type without a definition that fits it. -/
  | missing (t : MoveType) (e : Error)
  /-- A struct with a field that has no type under the arguments. -/
  | broken (d : StructDef) (args : List MoveType) (e : Error)
  /-- A struct that contains itself. -/
  | endless (d : StructDef) (args : List MoveType)

inductive FieldShapes where
  | nil
  | cons (name : String) (shape : Shape) (rest : FieldShapes)

end

namespace FieldShapes

def ofList : List (String × Shape) → FieldShapes
  | [] => .nil
  | (name, s) :: rest => .cons name s (ofList rest)

def toList : FieldShapes → List (String × Shape)
  | .nil => []
  | .cons name s rest => (name, s) :: rest.toList

@[simp] theorem toList_ofList (fs : List (String × Shape)) : (ofList fs).toList = fs := by
  induction fs with
  | nil => rfl
  | cons f fs ih => simp [ofList, toList, ih]

@[simp] theorem ofList_toList : ∀ fs : FieldShapes, ofList fs.toList = fs
  | .nil => rfl
  | .cons name s rest => by simp [toList, ofList, ofList_toList rest]

end FieldShapes

namespace Shape

def type : Shape → MoveType
  | .bool => .bool
  | .int w => .int w
  | .address => .address
  | .signer => .signer
  | .param i => .param i
  | .vector e => .vector e.type
  | .ref m t => .ref m t.type
  | .enum d args => .enum d.id args
  | .tagged d args => .struct d.id args
  | .struct d args _ => .struct d.id args
  | .missing t _ => t
  | .broken d args _ => .struct d.id args
  | .endless d args => .struct d.id args

section

variable (r : Registry) (enter : StructDef → List MoveType → List Shape → Shape)
  (env : List Shape)

mutual

/-- The shape of a type in an environment of argument shapes; `enter` gives the shape of a plain
struct from its definition and its arguments. -/
def ofType : MoveType → Shape
  | .bool => .bool
  | .int w => .int w
  | .address => .address
  | .signer => .signer
  | .param i => (env[i.toNat]?).getD (.param i)
  | .vector e => .vector (ofType e)
  | .ref m t => .ref m (ofType t)
  | .enum id args =>
    let ts := (ofTypes args).map type
    match r.enumOf id ts with
    | .ok d => .enum d ts
    | .error e => .missing (.enum id ts) e
  | .struct id args =>
    let shapes := ofTypes args
    let ts := shapes.map type
    match r.structOf id ts with
    | .ok d => if d.tag = .none then enter d ts shapes else .tagged d ts
    | .error e => .missing (.struct id ts) e

def ofTypes : List MoveType → List Shape
  | [] => []
  | t :: ts => ofType t :: ofTypes ts

end

end

/-- Shapes to a depth of `depth` open definitions, inside the definitions of `path`. -/
def expand (r : Registry) : (depth : Nat) → (path : List DefId) → (env : List Shape) →
    MoveType → Shape
  | 0, _, env, t => ofType r (fun d ts _ => .endless d ts) env t
  | depth + 1, path, env, t =>
    ofType r (fun d ts shapes =>
      if d.id ∈ path then .endless d ts
      else match Registry.instantiate d ts with
        | .error e => .broken d ts e
        | .ok _ =>
          .struct d ts (.ofList (d.fields.map fun f =>
            (f.name, expand r depth (d.id :: path) shapes f.type)))) env t

end Shape

def FieldShapes.firstType? : FieldShapes → Option MoveType
  | .nil => none
  | .cons _ s _ => some s.type

/-- The shape of a type. No more definitions can be open at once than there are. -/
def Registry.shape (r : Registry) (t : MoveType) : Shape :=
  Shape.expand r r.structs.length [] [] t

end MoveCodec
