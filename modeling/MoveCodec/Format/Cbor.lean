import MoveCodec.Bytes

/-!
# Canonical CBOR

The part of the format that keys need: unsigned numbers, byte and text strings, arrays, maps with
small numbers as keys, and truth. Every head is the shortest one. Maps are written in the order
given, so a map is canonical when its keys increase.
-/
namespace MoveCodec.Cbor

inductive Item where
  | unsigned (n : Nat)
  | bytes (bs : Bytes)
  | text (s : String)
  | array (items : List Item)
  | map (pairs : List (Nat × Item))
  | true

/-- The head of an item: its major type and an argument in the shortest form. The format ends at 64
bits; what is longer is written in unary behind a lead it reserves, so heads stay distinct. -/
def head (major arg : Nat) : Bytes :=
  let lead (info : Nat) : UInt8 := UInt8.ofNat (32 * major + info)
  if arg < 24 then [lead arg]
  else if arg < UInt8.size then lead 24 :: Bytes.ofNatBE 1 arg
  else if arg < UInt16.size then lead 25 :: Bytes.ofNatBE 2 arg
  else if arg < UInt32.size then lead 26 :: Bytes.ofNatBE 4 arg
  else if arg < UInt64.size then lead 27 :: Bytes.ofNatBE 8 arg
  else lead 28 :: List.replicate arg 1 ++ [0]

mutual

def encode : Item → Bytes
  | .unsigned n => head 0 n
  | .bytes bs => head 2 bs.length ++ bs
  | .text s =>
    let bs := Bytes.ofText s
    head 3 bs.length ++ bs
  | .array items => head 4 items.length ++ encodeAll items
  | .map pairs => head 5 pairs.length ++ encodePairs pairs
  | .true => [0xf5]

def encodeAll : List Item → Bytes
  | [] => []
  | i :: is => encode i ++ encodeAll is

def encodePairs : List (Nat × Item) → Bytes
  | [] => []
  | (k, i) :: ps => head 0 k ++ encode i ++ encodePairs ps

end

end MoveCodec.Cbor
