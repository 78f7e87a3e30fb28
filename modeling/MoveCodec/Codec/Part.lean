import MoveCodec.Prelude.Start
import MoveCodec.Wire.Class

/-!
# Parts of records and tuples

A record holds one value after another, each in a register's width: the value itself or a pointer
to it. A tuple on the wire has one head after another. A part is a value that has a place in both.
-/
namespace MoveCodec

def MoveType.register : MoveType → Wasm.ValType
  | .int .w64 => .i64
  | _ => .i32

/-- Offsets of the fields of a struct in its record, and the size of the record. -/
def FieldShapes.layout (fs : FieldShapes) : Except Error (List UInt32 × UInt32) :=
  Registry.placeFrom 0 <$> fs.toList.mapM fun (name, s) => within name s.type.stackSize

namespace Codec

open Wasm Wasm.Emit Assembly Prelude

def under {α : Type} (step : String) (act : Generate α) : Generate α :=
  tryCatch act fun e => throw (e.prepend step)

def lift {α : Type} : Except Error α → Generate α
  | .ok a => pure a
  | .error e => throw e

/-- Replaces the address on the stack by the value of a type that stands there. -/
def loadValue (t : MoveType) (offset : UInt32) : Step :=
  if t.register = .i64 then load64 offset else load offset

/-- Stores the value on the stack to the address below it. -/
def storeValue (t : MoveType) (offset : UInt32) : Step :=
  if t.register = .i64 then store64 offset else store offset

structure Part where
  /-- The type of the value, without a reference. -/
  type : MoveType
  /-- The record holds a reference to the value. -/
  boxed : Bool := false
  offset : UInt32
  head : UInt32
  func : FuncId

def headSum (parts : List Part) : UInt32 := parts.foldl (fun n p => n + p.head) 0

/-- Packs the parts of the record `rec` to heads from `dst + at` on; `base` is what the offsets of
tails count from. -/
def packParts (rec dst base : UInt32) (at' : UInt32) : List Part → Code
  | [] => []
  | p :: ps =>
    (push rec :: if p.boxed then [load p.offset, loadValue p.type 0]
      else [loadValue p.type p.offset]) ++
    addr dst at' ++ [push base, call p.func] ++ packParts rec dst base (at' + p.head) ps

/-- Unpacks the heads from `src + at` on into the record `rec`. -/
def unpackParts (rec src base : UInt32) (at' : UInt32) : List Part → Code
  | [] => []
  | p :: ps =>
    [push rec] ++ addr src at' ++ [push base, call p.func, storeValue p.type p.offset] ++
      unpackParts rec src base (at' + p.head) ps

end Codec

end MoveCodec
