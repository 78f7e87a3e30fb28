import MoveCodec.Bytes

/-!
# XXH3

The 64-bit hash with seed zero and the default secret. Inputs are treated by length: up to 16
bytes, up to 128, up to 240, and longer ones by stripes of 64 bytes.
-/
namespace MoveCodec.Xxh3

def secret : Array UInt8 := #[
  0xb8, 0xfe, 0x6c, 0x39, 0x23, 0xa4, 0x4b, 0xbe, 0x7c, 0x01, 0x81, 0x2c, 0xf7, 0x21, 0xad, 0x1c,
  0xde, 0xd4, 0x6d, 0xe9, 0x83, 0x90, 0x97, 0xdb, 0x72, 0x40, 0xa4, 0xa4, 0xb7, 0xb3, 0x67, 0x1f,
  0xcb, 0x79, 0xe6, 0x4e, 0xcc, 0xc0, 0xe5, 0x78, 0x82, 0x5a, 0xd0, 0x7d, 0xcc, 0xff, 0x72, 0x21,
  0xb8, 0x08, 0x46, 0x74, 0xf7, 0x43, 0x24, 0x8e, 0xe0, 0x35, 0x90, 0xe6, 0x81, 0x3a, 0x26, 0x4c,
  0x3c, 0x28, 0x52, 0xbb, 0x91, 0xc3, 0x00, 0xcb, 0x88, 0xd0, 0x65, 0x8b, 0x1b, 0x53, 0x2e, 0xa3,
  0x71, 0x64, 0x48, 0x97, 0xa2, 0x0d, 0xf9, 0x4e, 0x38, 0x19, 0xef, 0x46, 0xa9, 0xde, 0xac, 0xd8,
  0xa8, 0xfa, 0x76, 0x3f, 0xe3, 0x9c, 0x34, 0x3f, 0xf9, 0xdc, 0xbb, 0xc7, 0xc7, 0x0b, 0x4f, 0x1d,
  0x8a, 0x51, 0xe0, 0x4b, 0xcd, 0xb4, 0x59, 0x31, 0xc8, 0x9f, 0x7e, 0xc9, 0xd9, 0x78, 0x73, 0x64,
  0xea, 0xc5, 0xac, 0x83, 0x34, 0xd3, 0xeb, 0xc3, 0xc5, 0x81, 0xa0, 0xff, 0xfa, 0x13, 0x63, 0xeb,
  0x17, 0x0d, 0xdd, 0x51, 0xb7, 0xf0, 0xda, 0x49, 0xd3, 0x16, 0x55, 0x26, 0x29, 0xd4, 0x68, 0x9e,
  0x2b, 0x16, 0xbe, 0x58, 0x7d, 0x47, 0xa1, 0xfc, 0x8f, 0xf8, 0xb8, 0xd1, 0x7a, 0xd0, 0x31, 0xce,
  0x45, 0xcb, 0x3a, 0x8f, 0x95, 0x16, 0x04, 0x28, 0xaf, 0xd7, 0xfb, 0xca, 0xbb, 0x4b, 0x40, 0x7e]

def prime32a : UInt64 := 0x9E3779B1
def prime32b : UInt64 := 0x85EBCA77
def prime32c : UInt64 := 0xC2B2AE3D
def prime64a : UInt64 := 0x9E3779B185EBCA87
def prime64b : UInt64 := 0xC2B2AE3D27D4EB4F
def prime64c : UInt64 := 0x165667B19E3779F9
def prime64d : UInt64 := 0x85EBCA77C2B2AE63
def prime64e : UInt64 := 0x27D4EB2F165667C5
def mixPrime : UInt64 := 0x165667919E3779F9
def shortPrime : UInt64 := 0x9FB21C651E98DF25

def read (bs : Array UInt8) (start width : Nat) : UInt64 :=
  UInt64.ofNat (Bytes.toNatLE ((List.range width).map fun i => bs.getD (start + i) 0))

def read64 (bs : Array UInt8) (start : Nat) : UInt64 := read bs start 8

def rotateLeft (v n : UInt64) : UInt64 := (v <<< n) ||| (v >>> (64 - n))

def reverseBytes (v : UInt64) : UInt64 :=
  UInt64.ofNat (Bytes.toNatBE (Bytes.ofNatLE 8 v.toNat))

/-- The halves of the 128-bit product, combined. -/
def foldProduct (a b : UInt64) : UInt64 :=
  let p := a.toNat * b.toNat
  UInt64.ofNat p ^^^ UInt64.ofNat (p / UInt64.size)

def finish (h : UInt64) : UInt64 :=
  let h := h ^^^ (h >>> 37)
  let h := h * mixPrime
  h ^^^ (h >>> 32)

def finishTiny (h : UInt64) : UInt64 :=
  let h := h ^^^ (h >>> 33)
  let h := h * prime64b
  let h := h ^^^ (h >>> 29)
  let h := h * prime64c
  h ^^^ (h >>> 32)

def finishShort (h length : UInt64) : UInt64 :=
  let h := h ^^^ rotateLeft h 49 ^^^ rotateLeft h 24
  let h := h * shortPrime
  let h := h ^^^ ((h >>> 35) + length)
  let h := h * shortPrime
  h ^^^ (h >>> 28)

section

variable (bs : Array UInt8)

/-- Mixes 16 bytes of the input with 16 bytes of the secret. -/
def mix (start key : Nat) : UInt64 :=
  foldProduct (read64 bs start ^^^ read64 secret key)
    (read64 bs (start + 8) ^^^ read64 secret (key + 8))

def hashTiny : UInt64 :=
  let n := bs.size
  let length := UInt64.ofNat n
  if n = 0 then finishTiny (read64 secret 56 ^^^ read64 secret 64)
  else if n ≤ 3 then
    let a := read bs 0 1
    let b := read bs (n / 2) 1
    let c := read bs (n - 1) 1
    let combined := (a <<< 16) ||| (b <<< 24) ||| c ||| (length <<< 8)
    finishTiny (combined ^^^ (read secret 0 4 ^^^ read secret 4 4))
  else if n ≤ 8 then
    let input := read bs (n - 4) 4 + (read bs 0 4 <<< 32)
    finishShort (input ^^^ (read64 secret 8 ^^^ read64 secret 16)) length
  else
    let lo := read64 bs 0 ^^^ (read64 secret 24 ^^^ read64 secret 32)
    let hi := read64 bs (n - 8) ^^^ (read64 secret 40 ^^^ read64 secret 48)
    finish (length + reverseBytes lo + hi + foldProduct lo hi)

/-- From 17 to 128 bytes: pairs of 16 bytes from both ends, the innermost first. -/
def hashSmall : UInt64 :=
  let n := bs.size
  let pairs := if 96 < n then 4 else if 64 < n then 3 else if 32 < n then 2 else 1
  finish ((List.range pairs).foldl (fun acc i =>
    acc + mix bs (16 * i) (32 * i) + mix bs (n - 16 * (i + 1)) (32 * i + 16))
    (UInt64.ofNat n * prime64a))

def hashMedium : UInt64 :=
  let n := bs.size
  let first := (List.range 8).foldl (fun acc i => acc + mix bs (16 * i) (16 * i))
    (UInt64.ofNat n * prime64a)
  let rest := (List.range (n / 16 - 8)).foldl
    (fun acc i => acc + mix bs (16 * (i + 8)) (16 * i + 3)) (finish first)
  finish (rest + mix bs (n - 16) 119)

def addStripe (acc : Array UInt64) (start key : Nat) : Array UInt64 :=
  Array.ofFn fun i : Fin 8 =>
    let neighbour := i.val + 1 - 2 * (i.val % 2)
    let v := read64 bs (start + 8 * i.val) ^^^ read64 secret (key + 8 * i.val)
    acc.getD i.val 0 + read64 bs (start + 8 * neighbour) +
      (v &&& (0xffffffff : UInt64)) * (v >>> 32)

def scramble (acc : Array UInt64) : Array UInt64 :=
  Array.ofFn fun i : Fin 8 =>
    let a := acc.getD i.val 0
    ((a ^^^ (a >>> 47)) ^^^ read64 secret (128 + 8 * i.val)) * prime32a

/-- Adds the stripes `0, 1, …` of the block that starts at `start`. -/
def addStripes (acc : Array UInt64) (start stripes : Nat) : Array UInt64 :=
  (List.range stripes).foldl (fun acc i => addStripe bs acc (start + 64 * i) (8 * i)) acc

def hashLong : UInt64 :=
  let n := bs.size
  let blocks := (n - 1) / 1024
  let acc := (List.range blocks).foldl
    (fun acc i => scramble (addStripes bs acc (1024 * i) 16))
    #[prime32c, prime64a, prime64b, prime64c, prime64d, prime32b, prime64e, prime32a]
  let acc := addStripes bs acc (1024 * blocks) ((n - 1 - 1024 * blocks) / 64)
  let acc := addStripe bs acc (n - 64) 121
  finish ((List.range 4).foldl (fun h i =>
    h + foldProduct (acc.getD (2 * i) 0 ^^^ read64 secret (11 + 16 * i))
      (acc.getD (2 * i + 1) 0 ^^^ read64 secret (19 + 16 * i)))
    (UInt64.ofNat n * prime64a))

end

def hash (input : Bytes) : UInt64 :=
  let bs := input.toArray
  if bs.size ≤ 16 then hashTiny bs
  else if bs.size ≤ 128 then hashSmall bs
  else if bs.size ≤ 240 then hashMedium bs
  else hashLong bs

end MoveCodec.Xxh3
