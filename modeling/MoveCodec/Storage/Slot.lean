import MoveCodec.Hash.Keccak

/-!
# Storage slots

A slot is a word, read as a number with its most significant byte first. Objects are filed in a
mapping from owners to mappings from identifiers; the slot of a key in a mapping is the hash of
the key and of the slot of the mapping.
-/
namespace MoveCodec.Storage

abbrev Slot := Word

def baseSlot (n : UInt64) : Slot := Word.ofNat n.toNat

/-- The key of an account: its address, filled with zeros on the left. -/
def ownerKey (addr : Vector UInt8 20) : Word := Vector.replicate 12 (0 : UInt8) ++ addr

def sharedOwnerKey : Word := baseSlot 1

def frozenOwnerKey : Word := baseSlot 2

def mappingSlot (slot : Slot) (key : Word) : Slot := Keccak.hash (key.toList ++ slot.toList)

def objectSlot (base : Slot) (owner id : Word) : Slot := mappingSlot (mappingSlot base owner) id

/-- Adds one to a number given least significant byte first. -/
def increment : Bytes → Bytes
  | [] => []
  | b :: bs => if b + 1 = 0 then 0 :: increment bs else (b + 1) :: bs

/-- Subtracts one from a number given least significant byte first. -/
def decrement : Bytes → Bytes
  | [] => []
  | b :: bs => if b = 0 then 255 :: decrement bs else (b - 1) :: bs

@[simp] theorem length_increment (bs : Bytes) : (increment bs).length = bs.length := by
  induction bs with
  | nil => rfl
  | cons b bs ih => simp only [increment]; split <;> simp [ih]

@[simp] theorem length_decrement (bs : Bytes) : (decrement bs).length = bs.length := by
  induction bs with
  | nil => rfl
  | cons b bs ih => simp only [decrement]; split <;> simp [ih]

/-- The slot after a slot; zero follows the last. -/
def nextSlot (s : Slot) : Slot := ⟨(increment s.toList.reverse).reverse.toArray, by simp⟩

/-- The slot before a slot; the last precedes zero. -/
def prevSlot (s : Slot) : Slot := ⟨(decrement s.toList.reverse).reverse.toArray, by simp⟩

def slots (s : Slot) : Nat → List Slot
  | 0 => []
  | n + 1 => s :: slots (nextSlot s) n

@[simp] theorem length_slots (s : Slot) (n : Nat) : (slots s n).length = n := by
  induction n generalizing s with
  | zero => rfl
  | succ n ih => simp [slots, ih]

end MoveCodec.Storage
