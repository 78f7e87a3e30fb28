import MoveCodec.Codec.Pack
import MoveCodec.Storage.Layout
import MoveCodec.Storage.Locate

/-!
# Saving and loading objects

An object is stored in consecutive slots, one word for each scalar field. `save` and `read` go
through the fields in order and step from slot to slot.
-/
namespace MoveCodec.Storage

open Wasm Wasm.Emit Assembly Prelude Machine Codec

/-- Locals and code of a piece of a body. -/
abbrev Piece := List ValType × Code

/-! ## Fields -/

/-- Writes the value in the local `v` as the word at `w`; further locals start at `next`. -/
def wordOfValue (r : Registry) (t : MoveType) (v w next : UInt32) : Generate Piece :=
  match t with
  | .bool | .int .w8 | .int .w16 | .int .w32 => do return ([], storeWord (← swap32) w 0 v)
  | .enum .. => do return ([.i32], writeTag (← swap32) v w next)
  | .int .w64 => do return ([], writeU64 (← swap64) v w)
  | .int .w128 => do return ([], writeU128 (← reverseBlock 16) v w)
  | .int .w256 => do return ([], writeU256 (← reverseBlock 32) v w)
  | .address => pure ([], copyBlock w 0 v 0 32)
  | .struct .. =>
    match r.tagOf t with
    | .uid | .id | .bytes _ =>
      pure ([.i32], [push v] ++ openIdentifier (r.tagOf t) ++ [pop next] ++
        copyBlock w 0 next 0 32)
    | _ => throw (.internal .storage ("no word encoding for " ++ r.typeName t))
  | _ => throw (.internal .storage ("no word encoding for " ++ r.typeName t))

/-- Puts the address in `p` into a new record of one pointer, whose address is kept in `q`. -/
def box (p q : UInt32) : Code := alloc 4 q ++ [push q, push p, store 0]

/-- Reads the word at `w` as a value into the local `v`; further locals start at `v + 1`. -/
def valueOfWord (r : Registry) (t : MoveType) (w v : UInt32) : Generate Piece :=
  match t with
  | .bool | .int .w8 | .int .w16 | .int .w32 => do
    return ([.i32], [push w, load 28, call (← swap32), pop v])
  | .enum .. => do
    let swap ← swap32
    return ([.i32, .i32], alloc 4 (v + 1) ++
      [push (v + 1), push w, load 28, call swap, store 0, push (v + 1), pop v])
  | .int .w64 => do return ([.i64], [push w, load64 24, call (← swap64), pop v])
  | .int .w128 => do
    let swap ← reverseBlock 16
    return ([.i32, .i32], alloc 16 (v + 1) ++ addr w 16 ++
      [push (v + 1), call swap, push (v + 1), pop v])
  | .int .w256 => do
    let swap ← reverseBlock 32
    return ([.i32, .i32], alloc 32 (v + 1) ++
      [push w, push (v + 1), call swap, push (v + 1), pop v])
  | .address =>
    pure ([.i32, .i32], alloc 32 (v + 1) ++ copyBlock (v + 1) 0 w 0 32 ++ [push (v + 1), pop v])
  | .struct .. =>
    let bytes := alloc 32 (v + 1) ++ copyBlock (v + 1) 0 w 0 32
    match r.tagOf t with
    | .bytes _ => pure ([.i32, .i32], bytes ++ [push (v + 1), pop v])
    | .id =>
      pure ([.i32, .i32, .i32], bytes ++ box (v + 1) (v + 2) ++ [push (v + 2), pop v])
    | .uid =>
      pure ([.i32, .i32, .i32, .i32],
        bytes ++ box (v + 1) (v + 2) ++ box (v + 2) (v + 3) ++ [push (v + 3), pop v])
    | _ => throw (.internal .storage ("no word decoding for " ++ r.typeName t))
  | _ => throw (.internal .storage ("no word decoding for " ++ r.typeName t))

mutual

def fieldWriter (c : Context) : Shape → Generate FuncId
  | .struct d args fields => do
    let (offsets, _) ← lift fields.layout
    let next ← stepSlot
    let cache ← importHost c .storageCache
    request "storage_save_fields" [.struct d.id args] fun name =>
      define name [.i32, .i32] [] do
        let (locals, code) ← saveEach c next cache 3 fields offsets
        return (.i32 :: locals, [const slotData, pop 2] ++ code)
  | s => throw (.internal .storage ("no fields to store in " ++ c.registry.typeName s.type))

/-- Writes one field after another; locals start at `v`. -/
def saveEach (c : Context) (next cache : FuncId) (v : UInt32) :
    FieldShapes → List UInt32 → Generate Piece
  | .cons name s rest, offset :: offsets => do
    let read : Code := [push 0, loadValue s.type offset, pop v]
    let (locals, code) ← match s with
      | .struct d args fields => do
        let inner ← under name (fieldWriter c (.struct d args fields))
        pure (([], [push v, push 1, call inner]) : Piece)
      | s => do
        let (locals, code) ← under name (wordOfValue c.registry s.type v 2 (v + 1))
        pure (locals, code ++ [push 1, push 2, call cache, push 1, call next])
    let after := v + 1 + UInt32.ofNat locals.length
    let (locals', code') ← saveEach c next cache after rest offsets
    return (s.type.register :: locals ++ locals', read ++ code ++ code')
  | _, _ => pure ([], [])

end

mutual

def fieldReader (c : Context) : Shape → Generate FuncId
  | .struct d args fields => do
    let (offsets, size) ← lift fields.layout
    let next ← stepSlot
    let load ← importHost c .storageLoad
    request "storage_read_fields" [.struct d.id args] fun name =>
      define name [.i32] [.i32] do
        let (locals, code) ← readEach c next load 3 fields offsets
        return (.i32 :: .i32 :: locals,
          [const slotData, pop 1] ++ alloc size 2 ++ code ++ [push 2])
  | s => throw (.internal .storage ("no fields to store in " ++ c.registry.typeName s.type))

/-- Reads one field after another; locals start at `v`. -/
def readEach (c : Context) (next load : FuncId) (v : UInt32) :
    FieldShapes → List UInt32 → Generate Piece
  | .cons name s rest, offset :: offsets => do
    let (locals, code) ← match s with
      | .struct d args fields => do
        let inner ← under name (fieldReader c (.struct d args fields))
        pure (([.i32], [push 0, call inner, pop v]) : Piece)
      | s => do
        let (locals, code) ← under name (valueOfWord c.registry s.type 1 v)
        pure (locals, [push 0, push 1, call load] ++ code ++ [push 0, call next])
    let keep : Code := [push 2, push v, storeValue s.type offset]
    let after := v + UInt32.ofNat locals.length
    let (locals', code') ← readEach c next load after rest offsets
    return (locals ++ locals', code ++ keep ++ code')
  | _, _ => pure ([], [])

end

/-! ## Objects -/

/-- A struct type seen as an object: its type, its shape with all fields, and its words. -/
structure Stored where
  type : MoveType
  shape : Shape
  cells : List Cell

def stored (c : Context) (id : DefId) (args : List MoveType) : Generate Stored := do
  let d ← lift (c.registry.requireObject id args)
  let cells ← lift (c.registry.storageLayout id args)
  let fields ← lift (c.registry.fieldShapes id args)
  return ⟨.struct id args, .struct d args fields, cells⟩

/-- Copies the derived slot to a new place, which the walk over the fields can advance. -/
def copySlot (slot : UInt32) : Code :=
  alloc 32 slot ++ [push slot, const derivedSlot, const 32, copy]

def pushIdentifier (rec : UInt32) : Code := [push rec, load 0, load 0, load 0]

def saveBody (slotFn fields flush : FuncId) : Code :=
  [push 1] ++ pushIdentifier 0 ++ [call slotFn] ++ copySlot 2 ++
    [push 0, push 2, call fields, const 1, call flush]

def save (c : Context) (id : DefId) (args : List MoveType) : Generate FuncId := do
  let o ← stored c id args
  let slotFn ← deriveSlot c
  let fields ← fieldWriter c o.shape
  let flush ← importHost c .storageFlush
  request "storage_save" [o.type] fun name =>
    define name [.i32, .i32] [] (pure ([.i32], saveBody slotFn fields flush))

def readBody (slotFn eq fields : FuncId) : Code :=
  [push 0, push 1, call slotFn] ++ copySlot 3 ++ [push 3, call fields, pop 2] ++
    pushIdentifier 2 ++ [push 1, call eq, eqz, trapIf, push 2]

/-- The function that reads an object under an owner. A stored identifier that differs traps. -/
def read (c : Context) (id : DefId) (args : List MoveType) : Generate FuncId := do
  let o ← stored c id args
  let slotFn ← deriveSlot c
  let eq ← sameWord
  let fields ← fieldReader c o.shape
  request "storage_read" [o.type] fun name =>
    define name [.i32, .i32] [.i32] (pure ([.i32, .i32], readBody slotFn eq fields))

def loadBody (locate fields : FuncId) : Code :=
  [push 0, call locate] ++ copySlot 1 ++ [push 1, call fields]

/-- The function that reads an object wherever it is filed. -/
def load (c : Context) (id : DefId) (args : List MoveType) : Generate FuncId := do
  let o ← stored c id args
  let locate ← locate c
  let fields ← fieldReader c o.shape
  request "storage_load" [o.type] fun name =>
    define name [.i32] [.i32] (pure ([.i32], loadBody locate fields))

def deleteBody (slotFn next cache flush : FuncId) (words : Nat) : Code :=
  [push 1] ++ pushIdentifier 0 ++ [call slotFn] ++ copySlot 2 ++
    (List.range words).flatMap (fun _ =>
      [push 2, const zeroWord, call cache, push 2, call next]) ++
    [const 1, call flush]

def delete (c : Context) (id : DefId) (args : List MoveType) : Generate FuncId := do
  let o ← stored c id args
  let slotFn ← deriveSlot c
  let next ← stepSlot
  let cache ← importHost c .storageCache
  let flush ← importHost c .storageFlush
  request "storage_delete" [o.type] fun name =>
    define name [.i32, .i32] []
      (pure ([.i32], deleteBody slotFn next cache flush o.cells.length))

end MoveCodec.Storage
