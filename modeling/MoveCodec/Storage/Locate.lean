import MoveCodec.Prelude.Start

/-!
# Slot arithmetic in generated code

Functions that add numbers of 256 bits, step to the next slot, compare words, derive the slot of an
object and find the owner an object is filed under.
-/
namespace MoveCodec.Storage

open Wasm Wasm.Emit Assembly Prelude Machine

/-- Adds the numbers at two places, least significant byte first and modulo `2 ^ 256`. The places
may be the same. -/
def addBody : Code :=
  [0, 8, 16, 24].flatMap fun off =>
    [push 0, load64 off, keep 3, push 1, load64 off, add64, keep 4, push 3, lt64, pop 7,
     push 4, push 6, add64, keep 5, push 4, lt64, push 7, bor, extend, pop 6,
     push 2, push 5, store64 off]

def addWide : Generate FuncId :=
  request "add_u256" [] fun name =>
    define name [.i32, .i32, .i32] [] (pure ([.i64, .i64, .i64, .i64, .i32], addBody))

def nextSlotBody (swap add : FuncId) : Code :=
  [push 0, push 0, call swap, push 0, const oneWord, push 0, call add, push 0, push 0, call swap]

def stepSlot : Generate FuncId := do
  let swap ← reverseBlock 32
  let add ← addWide
  request "storage_next_slot" [] fun name =>
    define name [.i32] [] (pure ([], nextSlotBody swap add))

def sameWordBody : Code :=
  [push 0, load64 0, push 1, load64 0, eq64] ++
  [8, 16, 24].flatMap fun off => [push 0, load64 off, push 1, load64 off, eq64, band]

def sameWord : Generate FuncId :=
  request "equal_bytes32" [] fun name =>
    define name [.i32, .i32] [.i32] (pure ([], sameWordBody))

/-- Copies a word between fixed places, or from the place in a local. -/
def copyWord (dst : UInt32) (src : Step) : Code := [const dst, src, const 32, copy]

def deriveSlotBody (keccak : FuncId) : Code :=
  copyWord hashScratch (push 0) ++ copyWord (hashScratch + 32) (const objectsSlot) ++
  [const hashScratch, const 64, const derivedSlot, call keccak] ++
  copyWord hashScratch (push 1) ++ copyWord (hashScratch + 32) (const derivedSlot) ++
  [const hashScratch, const 64, const derivedSlot, call keccak]

/-- The function that derives the first slot of an object from its owner and identifier. -/
def deriveSlot (c : Context) : Generate FuncId := do
  let keccak ← importHost c .keccak
  request "write_object_slot" [] fun name =>
    define name [.i32, .i32] [] (pure ([], deriveSlotBody keccak))

/-- Reads the first word of the object under an owner and compares it with the identifier. -/
def probe (slot load eq : FuncId) (owner : UInt32) : Code :=
  [const owner, push 0, call slot, const derivedSlot, const slotData, call load,
   const slotData, push 0, call eq]

def locateBody (slot load eq origin : FuncId) : Code :=
  let found (owner : UInt32) : Code :=
    probe slot load eq owner ++ [when (copyWord ownerScratch (const owner) ++ [br 1])]
  [const ownerScratch, const 0, const 12, fill, const (ownerScratch + 12), call origin,
   .block .void (probe slot load eq ownerScratch ++ [brIf 0] ++ found sharedOwner ++
     found frozenOwner ++ [unreachable])]

/-- The function that finds the owner of an object: the transaction origin, then the owner of
shared and that of frozen objects. It leaves owner and first slot in their reserved places and
traps when no owner has the object. -/
def locate (c : Context) : Generate FuncId := do
  let slot ← deriveSlot c
  let eq ← sameWord
  let origin ← importHost c .txOrigin
  let load ← importHost c .storageLoad
  request "locate_object" [] fun name =>
    define name [.i32] [] (pure ([], locateBody slot load eq origin))

end MoveCodec.Storage
