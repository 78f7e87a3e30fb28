import MoveCodec.Hash.Keccak
import MoveCodec.Text.Camel
import MoveCodec.Wire.Class

/-!
# Signatures and selectors

The canonical name of a type says what stands on the wire: integers by width, arrays by a suffix,
plain structs as the tuple of their fields. A signature is an external name with the canonical
names of its parameters. Calls and errors are told apart by the first four bytes of the hash of
their signature, events by the whole hash.
-/
namespace MoveCodec

/-- Names between parentheses, divided by commas. -/
def Wire.tuple (names : List String) : String := "(" ++ ",".intercalate names ++ ")"

namespace Shape

open Wire

mutual

def canonicalName (r : Registry) : Shape → Except Error String
  | .bool => .ok "bool"
  | .int w => .ok ("uint" ++ toString w.bits)
  | .address => .ok "address"
  | .signer => .error (.signerFound .selector [])
  | .param i => .error (.typeParameter .selector [] i.toNat)
  | .ref m t => .error (reference r .selector m t)
  | .vector e => do return (← canonicalName r e) ++ "[]"
  | .enum d _ =>
    if d.isSimple then .ok "uint8" else .error (.enumNotSimple .selector [] d.name)
  | .tagged d _ =>
    match d.tag with
    | .string => .ok "string"
    | .bytes n => .ok ("bytes" ++ toString n)
    | .txContext => .error (withoutWireForm .selector d)
    | _ => .ok "bytes32"
  | .struct d _ fields => do return tuple (← fieldNames r d.name fields)
  | .missing _ e => .error e
  | .broken _ _ e => .error e
  | .endless d _ => .error (selfContaining .selector d)

def fieldNames (r : Registry) (owner : String) : FieldShapes → Except Error (List String)
  | .nil => .ok []
  | .cons name s rest => do
    let a ← within (owner ++ "." ++ name) (canonicalName r s)
    let bs ← fieldNames r owner rest
    return a :: bs

end

def structDef? : Shape → Option StructDef
  | .tagged d _ | .struct d _ _ | .broken d _ _ | .endless d _ => some d
  | _ => none

def isObject (s : Shape) : Bool := (s.structDef?.map (·.isObject)).getD false

/-- The name of a parameter: objects are passed by their identifier. -/
def paramName (r : Registry) (s : Shape) : Except Error String :=
  if s.isObject then .ok "bytes32" else s.canonicalName r

/-- Signers and the transaction context are supplied by the virtual machine. -/
def isInjected (r : Registry) (s : Shape) : Bool :=
  s.type = .signer || r.tagOf s.type = .txContext

end Shape

namespace Registry

variable (r : Registry)

def canonicalName (t : MoveType) : Except Error String := (r.shape t).canonicalName r

def paramName (t : MoveType) : Except Error String := (r.shape t).paramName r

def isInjected (t : MoveType) : Bool := t = .signer || r.tagOf t = .txContext

/-- The parameters a caller passes, without their references. -/
def publicParams : List MoveType → Except Error (List MoveType)
  | [] => .ok []
  | p :: ps => do
    let t ← p.deref
    let ts ← publicParams ps
    return if r.isInjected t then ts else t :: ts

def signature (name : String) (params : List MoveType) : Except Error String := do
  let parts ← params.zipIdx.mapM fun (p, i) =>
    within (name ++ "#" ++ toString i) (r.paramName p)
  return name ++ Wire.tuple parts

def functionSignature (name : String) (params : List MoveType) : Except Error String := do
  r.signature (Text.lowerCamel name) (← r.publicParams params)

/-- The field types of an error or event, which cannot be generic. -/
def payloadTypes (phase : Phase) (d : StructDef) : Except Error (List MoveType) := do
  if 0 < d.arity then
    throw (.unsupported phase d.name "generic error and event definitions cannot be encoded")
  return (← r.fields d.id []).map (·.type)

def payloadSignature (d : StructDef) : Except Error String := do
  let ts ← r.payloadTypes .selector d
  let parts ← ts.mapM fun t => within d.name (r.canonicalName t)
  return Text.upperCamel d.name ++ Wire.tuple parts

end Registry

namespace Wire

def selectorSize : UInt32 := 4

def selector (signature : String) : Bytes := (Keccak.hashText signature).toList.take 4

@[simp] theorem length_selector (signature : String) : (selector signature).length = 4 := by
  simp [selector]

def topic (signature : String) : Word := Keccak.hashText signature

end Wire

end MoveCodec
