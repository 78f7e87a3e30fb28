import MoveCodec.Bytes

/-!
# Reserved memory and globals

The bottom of memory holds constants and scratch words; the heap starts after it.
-/
namespace MoveCodec.Prelude

def zeroWord : UInt32 := 0
/-- The number one, least significant byte first. -/
def oneWord : UInt32 := 32
/-- The word that is read from or written to storage. -/
def slotData : UInt32 := 64
/-- The slot of the objects mapping. -/
def objectsSlot : UInt32 := 96
/-- The slot that was derived last. -/
def derivedSlot : UInt32 := 128
def sharedOwner : UInt32 := 160
def frozenOwner : UInt32 := 192
/-- The owner an object was found under. -/
def ownerScratch : UInt32 := 224
/-- Input of the hash, two words. -/
def hashScratch : UInt32 := 256
/-- The first address the allocator hands out. -/
def heapStart : UInt32 := 320

/-- The global with the next free address. -/
def heapTop : UInt32 := 0
/-- The global that moves over the heads while arguments are decoded. -/
def reader : UInt32 := 1
/-- The global with the first address after the call data. -/
def callEnd : UInt32 := 2

/-- The logical number of the allocator: it is the first function of every module. -/
def allocate : UInt32 := 0

end MoveCodec.Prelude
