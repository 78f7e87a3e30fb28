import MoveCodec.Codec.Payload

/-!
# Entry points

An entry point reads its call data from the host, checks the selector, decodes the parameters, does
its work and hands the encoded results back.
-/
namespace MoveCodec.Codec

open Wasm Wasm.Emit Assembly Prelude Machine

/-- The local of an entry point that holds the record of decoded parameters. -/
def entryArgs : UInt32 := 2

def entryLocals : UInt32 := 4

/-- Reads the call data and decodes the parameters. The heads must lie within the call data. -/
def entryDecode (readArgs unpack : FuncId) (selector : UInt32) : Code :=
  [push 0, call allocate, pop 1, push 1, call readArgs,
   push 0, const Wire.selectorSize, lt, trapIf,
   push 1, load 0, const selector, ne, trapIf,
   push 1, push 0, add, popGlobal callEnd] ++
  addr 1 Wire.selectorSize ++ [call unpack, pop entryArgs,
   pushGlobal reader, push 1, push 0, add, gt, trapIf]

/-- Encodes the results and hands them to the host. -/
def entryResult (pack write : FuncId) (hasResults : Bool) : Code :=
  (if hasResults then [] else [const 0]) ++ [call pack, pop 3] ++ handOver write 3 ++ [const 0]

/-- An exported entry point `(length) -> status`. The body gives further locals and the code that
does the work; with results it leaves the address of their record on the stack. -/
def entry (c : Context) (name : String) (params results : List MoveType)
    (body : Generate Storage.Piece) : Generate FuncId := do
  let external := Text.lowerCamel name
  let signature ← lift (c.registry.functionSignature name params)
  let unpack ← under name (unpackValues c params)
  let pack ← under name (packValues c results)
  if (← get).draft.isExported external then
    throw (.duplicate .codegen "" ("entry " ++ Text.quote external ++ " is already exported"))
  let f ← define ("entry_" ++ external) [.i32] [.i32] do
    let readArgs ← importHost c .readArgs
    let (locals, work) ← under name body
    let write ← importHost c .writeResult
    return ([.i32, .i32, .i32] ++ locals,
      entryDecode readArgs unpack (selectorConst signature) ++ work ++
        entryResult pack write !results.isEmpty)
  editDraft fun d => d.exportFunc external f
  return f

end MoveCodec.Codec
