import MoveCodec.Bytes

/-!
# Keccak-256

The sponge with a capacity of 512 bits over the 1600-bit permutation, in its first form: the
padding starts with the byte 1. The state is 25 lanes of 64 bits, lane `x + 5 y` in column `x` of
row `y`.
-/
namespace MoveCodec.Keccak

def rate : Nat := 136

abbrev Lanes := Array UInt64

def lane (s : Lanes) (x y : Nat) : UInt64 := s.getD (x % 5 + 5 * (y % 5)) 0

def build (f : Nat → Nat → UInt64) : Lanes :=
  Array.ofFn fun i : Fin 25 => f (i.val % 5) (i.val / 5)

@[simp] theorem size_build (f : Nat → Nat → UInt64) : (build f).size = 25 := by
  simp [build]

def rotateLeft (v : UInt64) (n : Nat) : UInt64 :=
  if n % 64 = 0 then v
  else (v <<< UInt64.ofNat (n % 64)) ||| (v >>> UInt64.ofNat (64 - n % 64))

/-- Rotation of each lane, in the order of the lanes. -/
def rotations : Array Nat := #[
  0, 1, 62, 28, 27,
  36, 44, 6, 55, 20,
  3, 10, 43, 25, 39,
  41, 45, 15, 21, 8,
  18, 2, 61, 56, 14]

def roundConstants : List UInt64 := [
  0x0000000000000001, 0x0000000000008082, 0x800000000000808a, 0x8000000080008000,
  0x000000000000808b, 0x0000000080000001, 0x8000000080008081, 0x8000000000008009,
  0x000000000000008a, 0x0000000000000088, 0x0000000080008009, 0x000000008000000a,
  0x000000008000808b, 0x800000000000008b, 0x8000000000008089, 0x8000000000008003,
  0x8000000000008002, 0x8000000000000080, 0x000000000000800a, 0x800000008000000a,
  0x8000000080008081, 0x8000000000008080, 0x0000000080000001, 0x8000000080008008]

/-- Adds to each lane the parity of two columns near it. -/
def theta (s : Lanes) : Lanes :=
  let c := Array.ofFn fun x : Fin 5 =>
    lane s x 0 ^^^ lane s x 1 ^^^ lane s x 2 ^^^ lane s x 3 ^^^ lane s x 4
  let d := Array.ofFn fun x : Fin 5 =>
    c.getD ((x.val + 4) % 5) 0 ^^^ rotateLeft (c.getD ((x.val + 1) % 5) 0) 1
  build fun x y => lane s x y ^^^ d.getD x 0

/-- Rotates each lane and moves it to its place. -/
def rhoPi (s : Lanes) : Lanes :=
  build fun x y =>
    let u := (x + 3 * y) % 5
    rotateLeft (lane s u x) (rotations.getD (u + 5 * x) 0)

/-- Combines each lane with its two neighbours in the row. -/
def chi (s : Lanes) : Lanes :=
  build fun x y => lane s x y ^^^ (~~~(lane s (x + 1) y) &&& lane s (x + 2) y)

def round (s : Lanes) (constant : UInt64) : Lanes :=
  let s := chi (rhoPi (theta s))
  s.setIfInBounds 0 (s.getD 0 0 ^^^ constant)

def permute (s : Lanes) : Lanes := roundConstants.foldl round s

/-- Adds a block of at most `rate` bytes to the state. -/
def absorb (s : Lanes) (block : Bytes) : Lanes :=
  let lanes := Array.ofFn fun i : Fin 17 =>
    UInt64.ofNat (Bytes.toNatLE ((block.drop (8 * i.val)).take 8))
  build fun x y => lane s x y ^^^ lanes.getD (x + 5 * y) 0

/-- The filling that makes a whole number of blocks: a one, zeros and a last bit. -/
def padding (length : Nat) : Bytes :=
  let gap := rate - length % rate
  if gap = 1 then [0x81] else 1 :: List.replicate (gap - 2) 0 ++ [0x80]

/-- Absorbs whole blocks; the fuel is the number of blocks. -/
def absorbBlocks : Nat → Lanes → Bytes → Lanes
  | 0, s, _ => s
  | n + 1, s, bs => absorbBlocks n (permute (absorb s (bs.take rate))) (bs.drop rate)

def hash (bs : Bytes) : Word :=
  let padded := bs ++ padding bs.length
  let s := absorbBlocks (padded.length / rate) (build fun _ _ => 0) padded
  Word.ofBytes ((List.range 4).flatMap fun i => Bytes.ofNatLE 8 (s.getD i 0).toNat)

def hashText (s : String) : Word := hash (Bytes.ofText s)

end MoveCodec.Keccak
