import MoveCodec.Codec.Unpack
import MoveCodec.Storage.Object
import MoveCodec.Wire.Signature

/-!
# Tuples of values

`pack_values(record)` encodes the values of a record as one tuple behind its length;
`unpack_values(base)` decodes the parameters of a function from call data into a record.
-/
namespace MoveCodec.Codec

open Wasm Wasm.Emit Assembly Prelude Machine

/-- A parameter without its reference, and whether it had one. -/
def unbox (phase : Phase) : MoveType → Except Error (MoveType × Bool)
  | .ref m (.ref n t) => .error (.refInsideRef phase [] (MoveType.render (.ref m (.ref n t))))
  | .ref _ t => .ok (t, true)
  | t => .ok (t, false)

/-! ## Packing -/

/-- The packers of values at offsets of a record. References are packed as what they point to. -/
def tupleParts (c : Context) : List (MoveType × UInt32) → Generate (List Part)
  | [] => pure []
  | (t, offset) :: rest => do
    let (type, boxed) ← lift (unbox .pack t)
    let func ← pack c type
    let head ← lift (c.registry.headSize type)
    let parts ← tupleParts c rest
    return { type, boxed, offset, head, func } :: parts

/-- Packs parts of the record `rec` into a new buffer: the length, `lead` bytes that `writeLead`
writes, heads and tails. The buffer is kept in `out`, the start of its heads in `base`. -/
def tupleCode (rec out base : UInt32) (parts : List Part) (lead : UInt32) (writeLead : Code) :
    Code :=
  alloc (4 + lead + headSum parts) out ++ writeLead ++ addr out (4 + lead) ++ [pop base] ++
    packParts rec base base 0 parts ++
    [push out, pushGlobal heapTop, push out, sub, const 4, sub, store 0]

def packValues (c : Context) (ts : List MoveType) : Generate FuncId := do
  let (offsets, _) ← lift (Registry.recordPlaces ts)
  request "pack_values" ts fun name => do
    let parts ← tupleParts c (ts.zip offsets)
    define name [.i32] [.i32] (pure ([.i32, .i32], tupleCode 0 1 2 parts 0 [] ++ [push 1]))

/-! ## Unpacking -/

/-- Where a parameter comes from. -/
inductive Source where
  /-- The transaction origin. -/
  | signer
  | context
  /-- Storage, under the identifier in the call data. -/
  | object (load : FuncId)
  /-- The call data. -/
  | value (unpack : FuncId) (head : UInt32)

structure Param where
  source : Source
  type : MoveType
  boxed : Bool
  offset : UInt32

def sourceOf (c : Context) (t : MoveType) : Generate Source :=
  if t = .signer then pure .signer
  else if c.registry.tagOf t = .txContext then pure .context
  else
    let value : Generate Source := do
      let func ← unpack c t
      return .value func (← lift (c.registry.headSize t))
    match t with
    | .struct id args =>
      if (c.registry.shape t).isObject then do return .object (← Storage.load c id args)
      else value
    | _ => value

def callParams (c : Context) (i : Nat) : List (MoveType × UInt32) → Generate (List Param)
  | [] => pure []
  | (t, offset) :: rest => do
    let (type, boxed) ← lift (unbox .unpack t)
    let source ← under ("#" ++ toString i) (sourceOf c type)
    let params ← callParams c (i + 1) rest
    return { source, type, boxed, offset } :: params

def advance (n : UInt32) : Code := [pushGlobal reader, const n, add, popGlobal reader]

/-- Gets a parameter into the local `v`; further locals start at `v + 1`. -/
def fetch (c : Context) (p : Param) (v : UInt32) : Generate Storage.Piece :=
  match p.source with
  | .signer => do
    let origin ← importHost c .txOrigin
    return ([p.type.register, .i32],
      alloc 32 (v + 1) ++ fillZero (v + 1) 0 12 ++ addr (v + 1) 12 ++
        [call origin, push (v + 1), pop v])
  | .context => pure ([p.type.register], [const zeroWord, pop v])
  | .object func =>
    pure ([p.type.register], [pushGlobal reader, call func, pop v] ++ advance 32)
  | .value func head =>
    pure ([p.type.register], [pushGlobal reader, push 0, call func, pop v] ++ advance head)

/-- Puts one parameter after another into the record in local 1; locals start at `v`. A parameter
that is a reference gets a cell of its own. -/
def fetchAll (c : Context) (v : UInt32) : List Param → Generate Storage.Piece
  | [] => pure ([], [])
  | p :: ps => do
    let (locals, code) ← fetch c p v
    let next := v + UInt32.ofNat locals.length
    if p.boxed then
      let size ← lift p.type.stackSize
      let keep : Code := alloc size next ++
        [push next, push v, storeValue p.type 0, push 1, push next, store p.offset]
      let (locals', code') ← fetchAll c (next + 1) ps
      return (locals ++ [.i32] ++ locals', code ++ keep ++ code')
    else
      let keep : Code := [push 1, push v, storeValue p.type p.offset]
      let (locals', code') ← fetchAll c next ps
      return (locals ++ locals', code ++ keep ++ code')

/-- The function that decodes parameters. The call data is read from left to right. -/
def unpackValues (c : Context) (ts : List MoveType) : Generate FuncId := do
  let (offsets, size) ← lift (Registry.recordPlaces ts)
  request "unpack_values" ts fun name => do
    let params ← callParams c 0 (ts.zip offsets)
    define name [.i32] [.i32] do
      let (locals, code) ← fetchAll c 2 params
      return (.i32 :: locals, [push 0, popGlobal reader] ++ alloc size 1 ++ code ++ [push 1])

end MoveCodec.Codec
