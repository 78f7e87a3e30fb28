import MoveCodec.Bytes
import MoveCodec.Text.Quoted

/-!
# Hexadecimal text

Two digits a byte, lower case when written, either case when read. Reading works on the UTF-8
bytes of the text and names the first byte that is no digit; only a text of digits alone can fail
for its length.
-/
namespace MoveCodec.Text.Hex

inductive Fault where
  | badByte (b : UInt8)
  | oddLength
  deriving DecidableEq, Repr

def Fault.message : Fault → String
  | .badByte b => "encoding/hex: invalid byte: " ++ describeCodePoint b.toNat
  | .oddLength => "encoding/hex: odd length hex string"

/-- The ASCII code of a digit below 16. -/
def digit (n : Nat) : UInt8 := UInt8.ofNat (Nat.digitChar n).toNat

/-- The value of a digit's ASCII code. -/
def value? (b : UInt8) : Option Nat :=
  if 48 ≤ b ∧ b ≤ 57 then some (b.toNat - 48)
  else if 97 ≤ b ∧ b ≤ 102 then some (b.toNat - 87)
  else if 65 ≤ b ∧ b ≤ 70 then some (b.toNat - 55)
  else none

def encodeBytes : Bytes → Bytes
  | [] => []
  | b :: bs => digit (b.toNat / 16) :: digit (b.toNat % 16) :: encodeBytes bs

def decodeBytes : Bytes → Except Fault Bytes
  | [] => .ok []
  | [a] => if (value? a).isSome then .error .oddLength else .error (.badByte a)
  | a :: b :: rest =>
    match value? a, value? b with
    | none, _ => .error (.badByte a)
    | _, none => .error (.badByte b)
    | some x, some y => (UInt8.ofNat (16 * x + y) :: ·) <$> decodeBytes rest

def encode (bs : Bytes) : String :=
  String.ofList ((encodeBytes bs).map fun b => Char.ofNat b.toNat)

def decode (s : String) : Except Fault Bytes := decodeBytes (Bytes.ofText s)

end MoveCodec.Text.Hex
