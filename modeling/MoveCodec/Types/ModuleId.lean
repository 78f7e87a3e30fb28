import MoveCodec.Error

/-!
# Account addresses and module identifiers

An account address is a word. Its text is `0x` and the shortest lower-case hexadecimal form. A
module is known by the address of its package and its name.
-/
namespace MoveCodec

abbrev AccountAddress := Word

namespace AccountAddress

/-- The text without a leading zero digit; the zero address keeps one digit. -/
def render (a : AccountAddress) : String :=
  "0x" ++ String.ofList (Nat.toDigits 16 (Word.toNat a))

/-- Drops `mark` where the text starts with it. -/
def dropMark (mark : Bytes) (text : Bytes) : Bytes :=
  if mark.isPrefixOf text then text.drop mark.length else text

/-- Reads an address: a mark `0x`, after it a mark `0X`, both of which may be missing, and one to
64 digits. Short forms are filled with zeros on the left. -/
def parse (s : String) : Except Error AccountAddress :=
  let digits := dropMark (Bytes.ofText "0X") (dropMark (Bytes.ofText "0x") (Bytes.ofText s))
  let r : Report :=
    { phase := some .types, kind := some .invalidInput,
      detail := "invalid address " ++ Text.quote s }
  if digits.isEmpty ∨ 64 < digits.length then .error (.report r)
  else
    let even := if digits.length % 2 = 1 then 48 :: digits else digits
    match Text.Hex.decodeBytes even with
    | .ok bs => .ok (Word.ofBytesRight bs)
    | .error f => .error (.wrapped r (.outside (.hex f)))

end AccountAddress

structure ModuleId where
  address : AccountAddress
  name : String
  deriving DecidableEq

namespace ModuleId

def render (m : ModuleId) : String := m.address.render ++ "::" ++ m.name

/-- Modules of the standard library and of the framework that hold types with a meaning of their
own. -/
def object : ModuleId := ⟨Word.ofNat 2, "object"⟩
def txContext : ModuleId := ⟨Word.ofNat 2, "tx_context"⟩
def bytes : ModuleId := ⟨Word.ofNat 2, "bytes"⟩
def string : ModuleId := ⟨Word.ofNat 1, "string"⟩

end ModuleId

end MoveCodec
