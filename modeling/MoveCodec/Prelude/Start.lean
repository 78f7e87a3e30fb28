import MoveCodec.Machine.HostFunc
import MoveCodec.Options
import MoveCodec.Prelude.Routines
import MoveCodec.Types.Registry

/-!
# Start of a module

Every generated module starts with memory, the reserved words, three globals and the allocator.
-/
namespace MoveCodec

structure Context where
  registry : Registry
  options : Options := {}

namespace Prelude

open Wasm Assembly Machine

/-- The words that memory holds from the start. -/
def reservedData (o : Options) : List Data :=
  [⟨oneWord, [1]⟩, ⟨objectsSlot, Bytes.ofNatBE 32 o.objectsSlot.toNat⟩,
   ⟨sharedOwner, Bytes.ofNatBE 32 1⟩, ⟨frozenOwner, Bytes.ofNatBE 32 2⟩]

/-- The reserved globals: heap top, reader and end of call data. Without an entry the call data
has no end. -/
def globals : List Global :=
  [⟨.i32, true, .i32 heapStart⟩, ⟨.i32, true, .i32 0⟩, ⟨.i32, true, .i32 0xffffffff⟩]

def start (name : String) (o : Options) : Assembly where
  draft := {
    name
    funcs := [.defined "allocate" ⟨[.i32], [.i32]⟩ allocateLocals
      (Code.flatten allocateBody ++ [.endMark]) true]
    globals
    memory := some ⟨o.pages, if o.maxPages = 0 then none else some o.maxPages⟩
    exports := ⟨"memory", Wasm.exportMemory, 0⟩ ::
      if o.exportAllocator then [⟨"allocate", Wasm.exportFunc, allocate⟩] else []
    data := reservedData o }

def importHost (c : Context) (f : HostFunc) : Generate FuncId := do
  let (id, draft) := (← get).draft.declareImport c.options.host f.name
    ⟨List.replicate f.arity .i32, []⟩
  modify fun a => { a with draft }
  return id

end Prelude

end MoveCodec
