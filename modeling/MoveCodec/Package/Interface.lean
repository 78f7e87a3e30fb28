import MoveCodec.Format.Json
import MoveCodec.Manifest.Resolve
import MoveCodec.Wire.Signature

/-!
# Interface of a package

What callers need to know: functions, errors and events with their parameters, signature and
selector. Plain structs are described as tuples with components, so a client can encode them
without the definitions.
-/
namespace MoveCodec

namespace Interface

structure Param where
  name : String
  type : String
  internal : String
  components : List Param := []
  indexed : Bool := false

inductive EntryKind where
  | function
  | error
  | event
  deriving DecidableEq

def EntryKind.name : EntryKind → String
  | .function => "function"
  | .error => "error"
  | .event => "event"

structure Entry where
  kind : EntryKind
  name : String
  inputs : List Param
  outputs : List Param := []
  signature : String
  /-- The selector of a function or error, the first topic of an event. -/
  selector : Bytes

def Entry.selectorText (e : Entry) : String := "0x" ++ Text.Hex.encode e.selector

end Interface

namespace Shape

open Interface

mutual

def describe (r : Registry) (name : String) : Shape → Except Error Param
  | .vector e => do
    let item ← within "[]" (describe r "" e)
    return { item with name, type := item.type ++ "[]", internal := r.typeName (.vector e.type) }
  | .struct d args fields => do
    let s : Shape := .struct d args fields
    let _ ← s.isDynamic r
    let components ← describeFields r d.name fields
    return { name, type := "tuple", internal := r.typeName s.type, components }
  | .endless d _ => .error (Wire.selfContaining .classify d)
  | s => do return { name, type := ← s.canonicalName r, internal := r.typeName s.type }

def describeFields (r : Registry) (owner : String) : FieldShapes → Except Error (List Param)
  | .nil => .ok []
  | .cons name s rest => do
    let p ← within (owner ++ "." ++ name) (describe r name s)
    let ps ← describeFields r owner rest
    return p :: ps

end

/-- A function parameter: objects are passed by their identifier. -/
def describeInput (r : Registry) (s : Shape) : Except Error Param :=
  if s.isObject then .ok { name := "", type := "bytes32", internal := r.typeName s.type }
  else s.describe r ""

end Shape

namespace Package

open Interface

variable (p : Package)

def functionEntry (f : PublicFunction) : Except Error Entry := do
  let r := p.registry
  let (inputs, outputs) ← within f.name do
    let inputs ← (← r.publicParams f.params).mapM fun t => (r.shape t).describeInput r
    let results ← f.results.mapM MoveType.deref
    let outputs ← results.mapM fun t => (r.shape t).describe r ""
    return (inputs, outputs)
  let signature ← r.functionSignature f.name f.params
  return { kind := .function, name := Text.lowerCamel f.name, inputs, outputs, signature,
           selector := Wire.selector signature }

def payloadParams (d : StructDef) : Except Error (List Param) := do
  let r := p.registry
  (← r.fields d.id []).mapM fun f =>
    within (d.name ++ "." ++ f.name) ((r.shape f.type).describe r f.name)

def errorEntry (d : StructDef) : Except Error Entry := do
  let inputs ← p.payloadParams d
  let signature ← p.registry.payloadSignature d
  return { kind := .error, name := Text.upperCamel d.name, inputs, signature,
           selector := Wire.selector signature }

def eventEntry (d : StructDef) : Except Error Entry := do
  let inputs ← p.payloadParams d
  let signature ← p.registry.payloadSignature d
  let marked := inputs.zipIdx.map fun (q, i) =>
    if (i : Int) < d.indexed then { q with indexed := true } else q
  return { kind := .event, name := Text.upperCamel d.name, inputs := marked, signature,
           selector := (Wire.topic signature).toList }

def interface : Except Error (List Entry) := do
  let functions ← p.functions.mapM p.functionEntry
  let errors ← p.errors.mapM p.errorEntry
  let events ← p.events.mapM p.eventEntry
  return functions ++ errors ++ events

end Package

namespace Interface

open Format (Json)

mutual

def Param.json : Param → Json
  | { name, type, internal, components, indexed } =>
    .object ([("name", .string name), ("type", .string type)] ++
      (if internal = "" then [] else [("internalType", .string internal)]) ++
      (match components with
        | [] => []
        | q :: qs => [("components", .array (Param.json q :: paramsJson qs))]) ++
      if indexed then [("indexed", .bool true)] else [])

def paramsJson : List Param → List Json
  | [] => []
  | q :: qs => Param.json q :: paramsJson qs

end

def Entry.json (e : Entry) : Json :=
  .object ([("type", .string e.kind.name), ("name", .string e.name),
      ("inputs", .array (paramsJson e.inputs))] ++
    (if e.outputs.isEmpty then [] else [("outputs", .array (paramsJson e.outputs))]) ++
    [("signature", .string e.signature), ("selector", .string e.selectorText)])

/-- The document of an interface; one without entries is null. -/
def json (entries : List Entry) : Json :=
  if entries.isEmpty then .null else .array (entries.map Entry.json)

end Interface

end MoveCodec
