import MoveCodec.Types.Shape

/-!
# Storage layout

A stored struct takes one word for each scalar field; plain structs inside it contribute their own
words in the order of their fields. Types of variable size are refused.
-/
namespace MoveCodec

namespace Storage

/-- A word of a stored struct: the value takes `size` bytes from `offset` on. -/
structure Cell where
  type : MoveType
  path : String
  offset : Nat
  size : Nat
  deriving DecidableEq

/-- The refusal of a field of variable size. -/
def notInline (path : String) (t : MoveType) : Error :=
  .report { phase := some .storage, kind := some .dynamicStorageField, path := [path],
            subject := t.render, detail := "dynamically sized fields cannot be stored inline" }

/-- `slot+N path type @offset:size` -/
def Cell.describe (i : Nat) (w : Cell) : String :=
  "slot+" ++ toString i ++ " " ++ w.path ++ " " ++ w.type.render ++ " @" ++ toString w.offset ++
    ":" ++ toString w.size

def describe (words : List Cell) : List String := words.zipIdx.map fun (w, i) => w.describe i

end Storage

namespace Shape

open Storage

mutual

/-- The words of a field at a path. -/
def cells (r : Registry) (path : String) : Shape → Except Error (List Cell)
  | .bool => .ok [⟨.bool, path, 31, 1⟩]
  | .int w => .ok [⟨.int w, path, 32 - w.bytes, w.bytes⟩]
  | .address => .ok [⟨.address, path, 12, 20⟩]
  | .enum d args =>
    if d.isSimple then .ok [⟨.enum d.id args, path, 28, 4⟩]
    else .error (.enumNotSimple .storage [path] d.name)
  | .vector e => .error (notInline path (.vector e.type))
  | .signer => .error (.signerFound .storage [path])
  | .param i => .error (.typeParameter .storage [path] i.toNat)
  | .ref m t =>
    match t with
    | .ref .. => .error (.refInsideRef .storage [path] (MoveType.render (.ref m t.type)))
    | _ => .error (.referenceFound .storage [path] (r.typeName (.ref m t.type)))
  | .tagged d args =>
    match d.tag with
    | .bytes n => .ok [⟨.struct d.id args, path, 0, n⟩]
    | .string => .error (notInline path (.struct d.id args))
    | .txContext => .error (.report
        { phase := some .storage, kind := some .unsupported, path := [path], subject := d.name,
          detail := "TxContext cannot be stored" })
    | _ => .ok [⟨.struct d.id args, path, 0, 32⟩]
  | .struct _ _ fields => fieldCells r path fields
  | .missing _ e => .error e
  | .broken _ _ e => .error e
  | .endless d _ => .error (.unsupported .storage d.name "type contains itself")

def fieldCells (r : Registry) (path : String) : FieldShapes → Except Error (List Cell)
  | .nil => .ok []
  | .cons name s rest => do
    let a ← cells r (path ++ "." ++ name) s
    let b ← fieldCells r path rest
    return a ++ b

end

end Shape

namespace Registry

open Storage

variable (r : Registry) (id : DefId) (args : List MoveType)

def fieldShapes : Except Error FieldShapes := do
  let fs ← r.fields id args
  return .ofList (fs.map fun f => (f.name, r.shape f.type))

def storageLayout : Except Error (List Cell) := do
  let d ← r.structOf id args
  (← r.fieldShapes id args).toList.flatMapM fun (name, s) => s.cells r (d.name ++ "." ++ name)

/-- A stored object has the key ability and starts with its unique identifier. -/
def requireObject : Except Error StructDef := do
  let d ← r.structOf id args
  if !d.isObject then throw (.invalidInput .storage d.name "struct lacks the key ability")
  let fs ← r.fields id args
  if fs.head?.map (fun f => r.tagOf f.type) ≠ some .uid then
    throw (.missingIdentity .storage d.name)
  return d

end Registry

end MoveCodec
