import MoveCodec.Assembly.Cache
import MoveCodec.Prelude.Reserved
import MoveCodec.Wasm.Emit

/-!
# Routines of generated code

The allocator, reversal of bytes, and the check that bytes are zero; and the pieces of code that
read and write words with them.
-/
namespace MoveCodec.Prelude

open Wasm Wasm.Emit Assembly

/-! ## Allocation -/

/-- Hands out the next `size` bytes of the heap. Memory grows as needed; an address that
overflows and memory that cannot grow trap. -/
def allocateBody : Code :=
  [pushGlobal heapTop, keep 1, push 0, add, keep 2, push 1, lt, trapIf,
   push 2, .op .memorySize, const 16, shl, keep 3, gt,
   when [push 2, push 3, sub, const 65535, add, const 16, shr, .op .memoryGrow, const 0xffffffff,
     eq, trapIf],
   push 2, popGlobal heapTop, push 1]

def allocateLocals : List ValType := [.i32, .i32, .i32]

def alloc (size ptr : UInt32) : Code := [const size, call allocate, pop ptr]

/-! ## Byte order -/

def swap32Body : Code :=
  [push 0, const 8, rotl, const 0x00ff00ff, band, push 0, const 8, rotr, const 0xff00ff00, band,
   bor]

def swap64Body (swap32 : FuncId) : Code :=
  [push 0, wrap, call swap32, extend, const64 32, shl64,
   push 0, const64 32, shr64, wrap, call swap32, extend, or64]

/-- Writes `8 * n` bytes in reverse order to another place. All bytes are read before any is
written, so the places may overlap. -/
def reverseBlockBody (swap64 : FuncId) (n : Nat) : Code :=
  (List.range n).flatMap (fun i =>
    [push 0, load64 (UInt32.ofNat (8 * i)), pop (UInt32.ofNat (2 + i))]) ++
  (List.range n).flatMap (fun i =>
    [push 1, push (UInt32.ofNat (2 + i)), call swap64, store64 (UInt32.ofNat (8 * (n - 1 - i)))])

def swap32 : Generate FuncId :=
  request "swap_i32" [] fun name =>
    define name [.i32] [.i32] (pure ([], swap32Body))

def swap64 : Generate FuncId := do
  let swap32 ← swap32
  request "swap_i64" [] fun name =>
    define name [.i64] [.i64] (pure ([], swap64Body swap32))

/-- The function that reverses 16 or 32 bytes in memory. -/
def reverseBlock (n : UInt32) : Generate FuncId := do
  if n ≠ 16 ∧ n ≠ 32 then
    throw (.internal .codegen ("swap_bytes of " ++ toString n.toNat ++ " bytes"))
  let swap64 ← swap64
  request ("swap_bytes_" ++ toString n.toNat) [] fun name =>
    define name [.i32, .i32] []
      (pure (List.replicate (n.toNat / 8) .i64, reverseBlockBody swap64 (n.toNat / 8)))

/-! ## Words -/

/-- Traps unless the `n` bytes at `ptr` are zero. -/
def requireZeroBody : Code :=
  [forever [push 1, eqz, brIf 1, push 0, load8 0, trapIf, push 0, const 1, add, pop 0,
     push 1, const 1, sub, pop 1]]

def requireZero : Generate FuncId :=
  request "assert_zero" [] fun name =>
    define name [.i32, .i32] [] (pure ([], requireZeroBody))

def fillZero (dst offset n : UInt32) : Code :=
  if n = 0 then [] else addr dst offset ++ [const 0, const n, fill]

def copyBlock (dst dstOffset src srcOffset n : UInt32) : Code :=
  addr dst dstOffset ++ addr src srcOffset ++ [const n, copy]

/-- Writes a local as a word, most significant byte first. -/
def storeWord (swap32 : FuncId) (dst offset value : UInt32) : Code :=
  fillZero dst offset 28 ++ [push dst, push value, call swap32, store (offset + 28)]

/-- Pushes a word that must fit in `width` bytes. -/
def loadWord (swap32 requireZero : FuncId) (src offset width : UInt32) : Code :=
  addr src offset ++
    [const (32 - width), call requireZero, push src, load (offset + 28), call swap32]

def requireZeroAt (requireZero : FuncId) (src offset n : UInt32) : Code :=
  if n = 0 then [] else addr src offset ++ [const n, call requireZero]

/-- The check of `n` bytes with the function it needs, if it needs one. -/
def checkZero (src offset n : UInt32) : Generate Code :=
  if n = 0 then pure []
  else do return requireZeroAt (← requireZero) src offset n

def checkedWord (src offset width : UInt32) : Generate Code := do
  let swap32 ← swap32
  let requireZero ← requireZero
  return loadWord swap32 requireZero src offset width

end MoveCodec.Prelude
