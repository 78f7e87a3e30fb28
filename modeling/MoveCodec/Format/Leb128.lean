import MoveCodec.Bytes

/-!
# LEB128

Numbers in groups of seven bits, least significant first; every byte but the last has its high bit
set. The signed form ends as soon as the rest is the sign. Both encoders take the greatest number
of groups they may write.
-/
namespace MoveCodec.Leb128

/-- Unsigned groups of a number below `128 ^ groups`. -/
def unsigned : (groups n : Nat) → Bytes
  | 0, _ => []
  | groups + 1, n =>
    if n < 128 then [UInt8.ofNat n]
    else UInt8.ofNat (n % 128 + 128) :: unsigned groups (n / 128)

/-- Signed groups of a number between `-64 * 128 ^ (groups - 1)` and its opposite. -/
def signed : (groups : Nat) → Int → Bytes
  | 0, _ => []
  | groups + 1, n =>
    let low := (n % 128).toNat
    let rest := n / 128
    if (rest = 0 ∧ low < 64) ∨ (rest = -1 ∧ 64 ≤ low) then [UInt8.ofNat low]
    else UInt8.ofNat (low + 128) :: signed groups rest

def u32 (v : UInt32) : Bytes := unsigned 5 v.toNat

def s32 (v : Int32) : Bytes := signed 5 v.toInt

def s64 (v : Int64) : Bytes := signed 10 v.toInt

def count (n : Nat) : Bytes := u32 (UInt32.ofNat n)

/-- Reads an unsigned number of at most `groups` groups and gives the rest. -/
def readUnsigned? : (groups : Nat) → Bytes → Option (Nat × Bytes)
  | 0, _ => none
  | _ + 1, [] => none
  | groups + 1, b :: bs =>
    if b < 128 then some (b.toNat, bs)
    else do
      let (n, rest) ← readUnsigned? groups bs
      return (b.toNat - 128 + 128 * n, rest)

/-- Reads a signed number of at most `groups` groups and gives the rest. -/
def readSigned? : (groups : Nat) → Bytes → Option (Int × Bytes)
  | 0, _ => none
  | _ + 1, [] => none
  | groups + 1, b :: bs =>
    if b < 64 then some (b.toNat, bs)
    else if b < 128 then some (b.toNat - 128, bs)
    else do
      let (n, rest) ← readSigned? groups bs
      return (b.toNat - 128 + 128 * n, rest)

def readU32? (bs : Bytes) : Option (UInt32 × Bytes) := do
  let (n, rest) ← readUnsigned? 5 bs
  if n < UInt32.size then return (UInt32.ofNat n, rest) else none

def readS32? (bs : Bytes) : Option (Int32 × Bytes) := do
  let (n, rest) ← readSigned? 5 bs
  if Int32.minValue.toInt ≤ n ∧ n ≤ Int32.maxValue.toInt then return (Int32.ofInt n, rest) else none

def readS64? (bs : Bytes) : Option (Int64 × Bytes) := do
  let (n, rest) ← readSigned? 10 bs
  if Int64.minValue.toInt ≤ n ∧ n ≤ Int64.maxValue.toInt then return (Int64.ofInt n, rest) else none

end MoveCodec.Leb128
