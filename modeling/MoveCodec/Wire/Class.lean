import MoveCodec.Types.Shape

/-!
# Static and dynamic types

On the wire a tuple is a sequence of heads. A static value stands in its head, a dynamic value in a
tail that its head points to. A head is one word, except that a static struct has the heads of its
fields. Types without a wire form are refused.
-/
namespace MoveCodec

namespace Wire

def wordSize : UInt32 := 32

def selfContaining (phase : Phase) (d : StructDef) : Error :=
  .unsupported phase d.name "type contains itself"

def withoutWireForm (phase : Phase) (d : StructDef) : Error :=
  .unsupported phase d.name "type is injected by the VM and has no wire representation"

def reference (r : Registry) (phase : Phase) (mutable : Bool) (target : Shape) : Error :=
  match target with
  | .ref .. => .refInsideRef phase [] (MoveType.render (.ref mutable target.type))
  | _ => .referenceFound phase [] (r.typeName (.ref mutable target.type))

/-- A persistent object starts with its unique identifier. -/
def requireIdentity (r : Registry) (d : StructDef) (first : Option MoveType) : Except Error Unit :=
  if first.map r.tagOf = some .uid then .ok () else .error (.missingIdentity .classify d.name)

end Wire

namespace Shape

open Wire

mutual

def isDynamic (r : Registry) : Shape → Except Error Bool
  | .bool | .int _ | .address => .ok false
  | .signer => .error (.signerFound .classify [])
  | .param i => .error (.typeParameter .classify [] i.toNat)
  | .ref m t => .error (reference r .classify m t)
  | .vector e => do
    let _ ← within "[]" (isDynamic r e)
    return true
  | .enum d _ => if d.isSimple then .ok false else .error (.enumNotSimple .classify [] d.name)
  | .tagged d _ =>
    match d.tag with
    | .string => .ok true
    | .txContext => .error (withoutWireForm .classify d)
    | _ => .ok false
  | .struct d _ fields => do
    if d.isObject then requireIdentity r d fields.firstType?
    fieldsDynamic r d.name fields
  | .missing _ e => .error e
  | .broken _ _ e => .error e
  | .endless d _ => .error (selfContaining .classify d)

def fieldsDynamic (r : Registry) (owner : String) : FieldShapes → Except Error Bool
  | .nil => .ok false
  | .cons name s rest => do
    let a ← within (owner ++ "." ++ name) (isDynamic r s)
    let b ← fieldsDynamic r owner rest
    return a || b

end

mutual

/-- Bytes of the heads of a static value. -/
def staticSize : Shape → UInt32
  | .struct _ _ fields => fieldsSize fields
  | _ => wordSize

def fieldsSize : FieldShapes → UInt32
  | .nil => 0
  | .cons _ s rest => staticSize s + fieldsSize rest

end

/-- Bytes a value takes among the heads of its tuple. -/
def headSize (r : Registry) (s : Shape) : Except Error UInt32 := do
  if ← s.isDynamic r then return wordSize else return s.staticSize

end Shape

namespace Registry

def isDynamic (r : Registry) (t : MoveType) : Except Error Bool := (r.shape t).isDynamic r

def headSize (r : Registry) (t : MoveType) : Except Error UInt32 := (r.shape t).headSize r

end Registry

end MoveCodec
