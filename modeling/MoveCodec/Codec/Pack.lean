import MoveCodec.Codec.Part

/-!
# Packing

For every type with a wire form there is a function `pack(value, writer, base)`. It writes the head
of the value at `writer`: the value itself when the type is static, otherwise the distance from
`base` to a tail that is allocated for it. Tails are allocated in the order of their heads, so
packing one value after another gives the canonical encoding.
-/
namespace MoveCodec.Codec

open Wasm Wasm.Emit Assembly Prelude

def packerParams (t : MoveType) : List ValType := [t.register, .i32, .i32]

/-! ## Words -/

def writeU64 (swap64 : FuncId) (v w : UInt32) : Code :=
  fillZero w 0 24 ++ [push w, push v, call swap64, store64 24]

def writeU128 (reverseBlock : FuncId) (v w : UInt32) : Code :=
  fillZero w 0 16 ++ [push v] ++ addr w 16 ++ [call reverseBlock]

def writeU256 (reverseBlock : FuncId) (v w : UInt32) : Code := [push v, push w, call reverseBlock]

/-- Writes the tag of the enum cell at `v` as the word at `w`; `tag` is a local for it. -/
def writeTag (swap32 : FuncId) (v w tag : UInt32) : Code :=
  [push v, load 0, pop tag] ++ storeWord swap32 w 0 tag

/-- Replaces an object's unique identifier, or an identifier, by the address of its bytes. -/
def openIdentifier : NativeTag → Code
  | .uid => [load 0, load 0]
  | .id => [load 0]
  | _ => []

def packWord (name : String) (t : MoveType) : Generate FuncId :=
  match t with
  | .bool | .int .w8 | .int .w16 | .int .w32 =>
    define name (packerParams t) [] do return ([], storeWord (← swap32) 1 0 0)
  | .enum .. =>
    define name (packerParams t) [] do return ([.i32], writeTag (← swap32) 0 1 3)
  | .int .w64 => do
    let swap ← swap64
    define name (packerParams t) [] (pure ([], writeU64 swap 0 1))
  | .int .w128 => do
    let swap ← reverseBlock 16
    define name (packerParams t) [] (pure ([], writeU128 swap 0 1))
  | .int .w256 => do
    let swap ← reverseBlock 32
    define name (packerParams t) [] (pure ([], writeU256 swap 0 1))
  | .address => define name (packerParams t) [] (pure ([], copyBlock 1 0 0 0 32))
  | t => define name (packerParams t) [] (throw (.internal .pack ("no packer for " ++ t.render)))

/-- Copies the bytes behind a value and fills the word with zeros. -/
def packBytesBody (tag : NativeTag) : Code :=
  let n : UInt32 := match tag with
    | .bytes n => UInt32.ofNat n
    | _ => 32
  [push 0] ++ openIdentifier tag ++ [pop 3] ++ copyBlock 1 0 3 0 n ++ fillZero 1 n (32 - n)

/-! ## Tails -/

/-- Allocates nothing; writes the distance from `base` to the tail as the head at `w`. -/
def writeOffset (swap32 : FuncId) (tail base w off : UInt32) : Code :=
  [push tail, push base, sub, pop off] ++ storeWord swap32 w 0 off

/-- Writes length and bytes of a text, filled with zeros to whole words, into a new tail. The bytes
stand in memory as a vector with four bytes for each. -/
def packStringBody (swap32 : FuncId) : Code :=
  [push 0, load 0, keep 3, load 0, pop 4,
   push 4, const 31, add, const 0xffffffe0, band, pop 5,
   const 32, push 5, add, call allocate, pop 6] ++
  writeOffset swap32 6 2 1 7 ++ storeWord swap32 6 0 4 ++
  [upTo 8 4
    [push 6, push 8, add, push 3, push 8, const 4, mul, add, load8 8, store8 32],
   push 6, push 4, add, const 32, add, const 0, push 5, push 4, sub, fill]

/-- Writes length, heads and tails of the elements of a vector into a new tail. The offsets of
elements count from the first head. -/
def packVectorBody (swap32 : FuncId) (elem : Part) : Code :=
  [push 0, load 0, pop 3,
   const 32, push 3, const elem.head, mul, add, call allocate, pop 4] ++
  writeOffset swap32 4 2 1 5 ++ storeWord swap32 4 0 3 ++ addr 4 32 ++ [pop 6,
   upTo 7 3
    [push 0, push 7, const elem.offset, mul, add, loadValue elem.type 8,
     push 6, push 7, const elem.head, mul, add, push 6, call elem.func]]

def packStaticBody (parts : List Part) : Code := packParts 0 1 2 0 parts

def packDynamicBody (swap32 : FuncId) (parts : List Part) : Code :=
  alloc (headSum parts) 3 ++ writeOffset swap32 3 2 1 4 ++ packParts 0 3 3 0 parts

/-- A request for the packer of a shape; `gen` is told whether the type is dynamic. -/
def packRequest (r : Registry) (s : Shape) (gen : Bool → String → Generate FuncId) :
    Generate FuncId := do
  let dynamic ← lift (s.isDynamic r)
  request "pack" [s.type] (gen dynamic)

def packTagged (name : String) (d : StructDef) (t : MoveType) : Generate FuncId :=
  match d.tag with
  | .string =>
    define name (packerParams t) [] do
      return (List.replicate 6 .i32, packStringBody (← swap32))
  | tag => define name (packerParams t) [] (pure ([.i32], packBytesBody tag))

mutual

def packShape (r : Registry) : Shape → Generate FuncId
  | .vector e => packRequest r (.vector e) fun _ name => do
    let func ← under "[]" (packShape r e)
    let stride ← lift e.type.stackSize
    let head ← lift (e.headSize r)
    define name (packerParams (.vector e.type)) [] do
      let swap ← swap32
      return (List.replicate 5 .i32,
        packVectorBody swap { type := e.type, offset := stride, head, func })
  | .struct d args fields => packRequest r (.struct d args fields) fun dynamic name => do
    let (offsets, _) ← lift fields.layout
    let parts ← packFields r d.name fields offsets
    define name (packerParams (.struct d.id args)) [] do
      if dynamic then return ([.i32, .i32], packDynamicBody (← swap32) parts)
      else return ([], packStaticBody parts)
  | .tagged d args => packRequest r (.tagged d args) fun _ name =>
    packTagged name d (.struct d.id args)
  | s => packRequest r s fun _ name => packWord name s.type

def packFields (r : Registry) (owner : String) :
    FieldShapes → List UInt32 → Generate (List Part)
  | .cons name s rest, offset :: offsets => do
    let func ← under (owner ++ "." ++ name) (packShape r s)
    let head ← lift (s.headSize r)
    let parts ← packFields r owner rest offsets
    return { type := s.type, offset, head, func } :: parts
  | _, _ => pure []

end

def pack (c : Context) (t : MoveType) : Generate FuncId :=
  packShape c.registry (c.registry.shape t)

end MoveCodec.Codec
