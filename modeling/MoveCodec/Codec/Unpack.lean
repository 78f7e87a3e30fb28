import MoveCodec.Codec.Part

/-!
# Unpacking

For every type that can be rebuilt from call data there is a function `unpack(reader, base)` that
gives the value whose head is at `reader`; offsets of tails count from `base`. It traps on high
bytes that do not fit, on truth values other than 0 and 1, on enum indices out of range, and on
offsets that wrap or point past the end of the call data.
-/
namespace MoveCodec

namespace Shape

/-- The refusal of an object: it is passed by its identifier and loaded from storage. -/
def byIdentifier (d : StructDef) : Error :=
  .unsupported .unpack d.name "objects are passed by id and cannot be decoded by value"

mutual

/-- Refuses types with a unique identifier or an object inside. -/
def checkDecodable : Shape → Except Error Unit
  | .vector e => within "[]" (checkDecodable e)
  | .tagged d _ =>
    if d.tag = .uid ∨ d.isObject then .error (byIdentifier d) else .ok ()
  | .struct d _ fields =>
    if d.isObject then .error (byIdentifier d) else checkDecodableFields d.name fields
  | _ => .ok ()

def checkDecodableFields (owner : String) : FieldShapes → Except Error Unit
  | .nil => .ok ()
  | .cons name s rest => do
    within (owner ++ "." ++ name) (checkDecodable s)
    checkDecodableFields owner rest

end

end Shape

namespace Codec

open Wasm Wasm.Emit Assembly Prelude

/-- The most elements a decoded vector can have, so that the size of its record does not wrap. -/
def maxElements : UInt32 := 0x4000000

/-! ## Words -/

/-- Traps unless the value just loaded is at most 1, and gives it. -/
def unpackBoolBody (word : Code) : Code := word ++ [keep 2, const 1, gt, trapIf, push 2]

def unpackU64Body (check : Code) (swap64 : FuncId) : Code :=
  check ++ [push 0, load64 24, call swap64]

def unpackU128Body (check : Code) (reverseBlock : FuncId) : Code :=
  check ++ alloc 16 2 ++ addr 0 16 ++ [push 2, call reverseBlock, push 2]

def unpackU256Body (reverseBlock : FuncId) : Code :=
  alloc 32 2 ++ [push 0, push 2, call reverseBlock, push 2]

def unpackCopyBody (check : Code) : Code := check ++ alloc 32 2 ++ copyBlock 2 0 0 0 32 ++ [push 2]

/-- Puts the index of a variant into a new cell. -/
def unpackTagBody (word : Code) (variants : UInt32) : Code :=
  word ++ [keep 2, const variants, ge, trapIf] ++ alloc 4 3 ++
    [push 3, push 2, store 0, push 3]

/-- Copies a word and puts its address into a record of its own. -/
def unpackIdentifierBody : Code :=
  alloc 32 2 ++ copyBlock 2 0 0 0 32 ++ alloc 4 3 ++ [push 3, push 2, store 0, push 3]

def defineUnpack (name : String) (t : MoveType) (body : Generate (List ValType × Code)) :
    Generate FuncId :=
  define name [.i32, .i32] [t.register] body

/-- Unpacks a type other than a vector or struct. -/
def unpackWord (name : String) (s : Shape) : Generate FuncId :=
  match s with
  | .bool => defineUnpack name .bool do return ([.i32], unpackBoolBody (← checkedWord 0 0 1))
  | .int .w8 => defineUnpack name (.int .w8) do return ([], ← checkedWord 0 0 1)
  | .int .w16 => defineUnpack name (.int .w16) do return ([], ← checkedWord 0 0 2)
  | .int .w32 => defineUnpack name (.int .w32) do return ([], ← checkedWord 0 0 4)
  | .int .w64 => do
    let swap ← swap64
    defineUnpack name (.int .w64) do return ([], unpackU64Body (← checkZero 0 0 24) swap)
  | .int .w128 => do
    let swap ← reverseBlock 16
    defineUnpack name (.int .w128) do return ([.i32], unpackU128Body (← checkZero 0 0 16) swap)
  | .int .w256 => do
    let swap ← reverseBlock 32
    defineUnpack name (.int .w256) (pure ([.i32], unpackU256Body swap))
  | .address => defineUnpack name .address do
      return ([.i32], unpackCopyBody (← checkZero 0 0 12))
  | .enum d args =>
    if UInt32.size ≤ d.variants.length then throw (.internal .unpack (d.name ++ ": out of range"))
    else defineUnpack name (.enum d.id args) do
      return ([.i32, .i32],
        unpackTagBody (← checkedWord 0 0 1) (UInt32.ofNat d.variants.length))
  | s => defineUnpack name s.type
      (throw (.internal .unpack ("no unpacker for " ++ s.type.render)))

/-! ## Tails -/

/-- Follows the offset at `r` to a tail and keeps its address in `p`. The offset must fit in four
bytes, the sum must not wrap, and a whole word must lie between the tail and the end. -/
def followOffset (word : Code) (base p : UInt32) : Code :=
  word ++ [push base, add, keep p, push base, lt, trapIf,
    push p, pushGlobal callEnd, gt, trapIf,
    pushGlobal callEnd, push p, sub, const 32, lt, trapIf]

/-- Keeps the length at a tail in `n`; it must not exceed `maxElements`. -/
def boundedLength (word : Code) (n : UInt32) : Code :=
  word ++ [keep n, const maxElements, gt, trapIf]

def vectorHeader (vec n : UInt32) : Code :=
  [push vec, push n, store 0, push vec, push n, store 4]

def unpackStringBody (offset length : Code) : Code :=
  followOffset offset 1 2 ++ boundedLength length 3 ++
  [const 8, push 3, const 4, mul, add, call allocate, pop 4] ++ vectorHeader 4 3 ++
  [upTo 5 3
    [push 4, push 5, const 4, mul, add, push 2, push 5, add, load8 32, store 8]] ++
  alloc 4 6 ++ [push 6, push 4, store 0, push 6]

def unpackVectorBody (offset length : Code) (elem : Part) : Code :=
  followOffset offset 1 2 ++ boundedLength length 3 ++
  [const 8, push 3, const elem.offset, mul, add, call allocate, pop 4] ++ vectorHeader 4 3 ++
  addr 2 32 ++ [pop 5,
   upTo 6 3
    [push 4, push 6, const elem.offset, mul, add,
     push 5, push 6, const elem.head, mul, add, push 5, call elem.func,
     storeValue elem.type 8],
   push 4]

def unpackStaticBody (size : UInt32) (parts : List Part) : Code :=
  alloc size 2 ++ unpackParts 2 0 1 0 parts ++ [push 2]

def unpackDynamicBody (offset : Code) (size : UInt32) (parts : List Part) : Code :=
  followOffset offset 1 2 ++ alloc size 3 ++ unpackParts 3 2 2 0 parts ++ [push 3]

def unpackRequest (r : Registry) (s : Shape) (gen : Bool → String → Generate FuncId) :
    Generate FuncId := do
  let dynamic ← lift (s.isDynamic r)
  lift s.checkDecodable
  request "unpack" [s.type] (gen dynamic)

def unpackTagged (name : String) (d : StructDef) (t : MoveType) : Generate FuncId :=
  match d.tag with
  | .string => defineUnpack name t do
      let offset ← checkedWord 0 0 4
      let length ← checkedWord 2 0 4
      return (List.replicate 5 .i32, unpackStringBody offset length)
  | .bytes n => defineUnpack name t do
      return ([.i32],
        unpackCopyBody (← checkZero 0 (UInt32.ofNat n) (32 - UInt32.ofNat n)))
  | .id => defineUnpack name t (pure ([.i32, .i32], unpackIdentifierBody))
  | _ => throw (.unsupported .unpack d.name "type has no decoder")

mutual

def unpackShape (r : Registry) : Shape → Generate FuncId
  | .vector e => unpackRequest r (.vector e) fun _ name => do
    let func ← under "[]" (unpackShape r e)
    let stride ← lift e.type.stackSize
    let head ← lift (e.headSize r)
    defineUnpack name (.vector e.type) do
      let offset ← checkedWord 0 0 4
      let length ← checkedWord 2 0 4
      return (List.replicate 5 .i32,
        unpackVectorBody offset length { type := e.type, offset := stride, head, func })
  | .struct d args fields => unpackRequest r (.struct d args fields) fun dynamic name => do
    let (offsets, size) ← lift fields.layout
    let parts ← unpackFields r d.name fields offsets
    defineUnpack name (.struct d.id args) do
      if dynamic then
        return ([.i32, .i32], unpackDynamicBody (← checkedWord 0 0 4) size parts)
      else return ([.i32], unpackStaticBody size parts)
  | .tagged d args => unpackRequest r (.tagged d args) fun _ name =>
    unpackTagged name d (.struct d.id args)
  | s => unpackRequest r s fun _ name => unpackWord name s

def unpackFields (r : Registry) (owner : String) :
    FieldShapes → List UInt32 → Generate (List Part)
  | .cons name s rest, offset :: offsets => do
    let func ← under (owner ++ "." ++ name) (unpackShape r s)
    let head ← lift (s.headSize r)
    let parts ← unpackFields r owner rest offsets
    return { type := s.type, offset, head, func } :: parts
  | _, _ => pure []

end

def unpack (c : Context) (t : MoveType) : Generate FuncId :=
  unpackShape c.registry (c.registry.shape t)

end Codec

end MoveCodec
