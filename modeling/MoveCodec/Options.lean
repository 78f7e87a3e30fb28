/-!
# Build options
-/
namespace MoveCodec

structure Options where
  /-- The module that host functions are imported from. -/
  host : String := "vm_hooks"
  pages : UInt32 := 1
  /-- Bound on the size of memory in pages; 0 for none. -/
  maxPages : UInt32 := 0
  /-- The storage slot of the objects mapping. -/
  objectsSlot : UInt64 := 0
  /-- The allocator is exported, so that a host can place inputs. -/
  exportAllocator : Bool := true
  deriving DecidableEq, Repr

/-- An empty host name and a memory without pages stand for the defaults. -/
def Options.withDefaults (o : Options) : Options :=
  { o with
    host := if o.host = "" then "vm_hooks" else o.host
    pages := if o.pages = 0 then 1 else o.pages }

end MoveCodec
