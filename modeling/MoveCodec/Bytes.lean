/-!
# Byte strings and words

Byte strings are lists. Numbers are written to a fixed width in either byte order, and what does
not fit is dropped. A word is 32 bytes, the unit of the wire format and of storage.
-/
namespace MoveCodec

abbrev Bytes := List UInt8

namespace Bytes

/-- The `width` low bytes of `n`, least significant first. -/
def ofNatLE : (width n : Nat) → Bytes
  | 0, _ => []
  | width + 1, n => UInt8.ofNat n :: ofNatLE width (n / 256)

@[simp] theorem length_ofNatLE (width n : Nat) : (ofNatLE width n).length = width := by
  induction width generalizing n with
  | zero => rfl
  | succ width ih => simp [ofNatLE, ih]

/-- The `width` low bytes of `n`, most significant first. -/
def ofNatBE (width n : Nat) : Bytes := (ofNatLE width n).reverse

@[simp] theorem length_ofNatBE (width n : Nat) : (ofNatBE width n).length = width := by
  simp [ofNatBE]

/-- The number whose bytes are given least significant first. -/
def toNatLE : Bytes → Nat
  | [] => 0
  | b :: bs => b.toNat + 256 * toNatLE bs

/-- The number whose bytes are given most significant first. -/
def toNatBE (bs : Bytes) : Nat := toNatLE bs.reverse

@[simp] theorem toNatLE_ofNatLE (width n : Nat) :
    toNatLE (ofNatLE width n) = n % Nat.pow 256 width := by
  induction width generalizing n with
  | zero => exact (Nat.mod_one n).symm
  | succ width ih =>
    have h : (UInt8.ofNat n).toNat = n % 256 := by simp
    have hp : Nat.pow 256 (width + 1) = 256 * Nat.pow 256 width := Nat.mul_comm _ _
    rw [ofNatLE, toNatLE, ih, h, hp, Nat.mod_mul]

@[simp] theorem toNatBE_ofNatBE (width n : Nat) :
    toNatBE (ofNatBE width n) = n % Nat.pow 256 width := by
  rw [toNatBE, ofNatBE, List.reverse_reverse, toNatLE_ofNatLE]

theorem toNatLE_lt (bs : Bytes) : toNatLE bs < Nat.pow 256 bs.length := by
  induction bs with
  | nil => exact Nat.one_pos
  | cons b bs ih =>
    have hb : b.toNat < 256 := b.toNat_lt
    have hp : Nat.pow 256 (b :: bs).length = Nat.pow 256 bs.length * 256 := rfl
    rw [toNatLE, hp]
    omega

@[simp] theorem ofNatLE_toNatLE (bs : Bytes) : ofNatLE bs.length (toNatLE bs) = bs := by
  induction bs with
  | nil => rfl
  | cons b bs ih =>
    have hb := b.toNat_lt
    have h1 : UInt8.ofNat (b.toNat + 256 * toNatLE bs) = b := by
      apply UInt8.toNat_inj.mp
      simp
    have h2 : (b.toNat + 256 * toNatLE bs) / 256 = toNatLE bs := by omega
    simp [ofNatLE, toNatLE, h1, h2, ih]

def ofText (s : String) : Bytes := s.toUTF8.data.toList

end Bytes

abbrev Word := Vector UInt8 32

namespace Word

/-- The word of a number, most significant byte first, modulo `2 ^ 256`. -/
def ofNat (n : Nat) : Word := ⟨(Bytes.ofNatBE 32 n).toArray, by simp⟩

/-- The number a word spells, most significant byte first. -/
def toNat (w : Word) : Nat := Bytes.toNatBE w.toList

def zero : Word := ofNat 0

/-- The first 32 bytes, filled with zeros on the right. -/
def ofBytes (bs : Bytes) : Word :=
  ⟨((bs ++ List.replicate 32 0).take 32).toArray, by simp⟩

/-- The last bytes of a word are `bs`, the others are zero; of more than 32 bytes the first 32
count. -/
def ofBytesRight (bs : Bytes) : Word :=
  ofBytes (List.replicate (32 - bs.length) 0 ++ bs)

@[simp] theorem toNat_ofNat (n : Nat) : (ofNat n).toNat = n % Nat.pow 2 256 := by
  have h : (ofNat n).toList = Bytes.ofNatBE 32 n := by simp [ofNat, Vector.toList]
  have pow : Nat.pow 256 32 = Nat.pow 2 256 := by decide
  rw [toNat, h, Bytes.toNatBE_ofNatBE, pow]

end Word

end MoveCodec
