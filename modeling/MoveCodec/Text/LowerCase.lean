import MoveCodec.Bytes

/-!
# Lower case in bytes

Words are compared with ASCII names byte by byte, in lower case. Beyond ASCII a letter matters in
two ways only: its small letter may be an ASCII letter, or may have another number of bytes. The
table lists the letters of Unicode 15 with one of these properties; every other letter stays, since
its small letter has as many bytes and none of them is ASCII.
-/
namespace MoveCodec.Text

/-- Letters beyond ASCII whose small letter has another number of bytes, by code point. -/
def resizedLetters : List (Nat × Nat) := [
  (0x130, 0x69), (0x23a, 0x2c65), (0x23e, 0x2c66), (0x1e9e, 0xdf), (0x2126, 0x3c9),
  (0x212a, 0x6b), (0x212b, 0xe5), (0x2c62, 0x26b), (0x2c64, 0x27d), (0x2c6d, 0x251),
  (0x2c6e, 0x271), (0x2c6f, 0x250), (0x2c70, 0x252), (0x2c7e, 0x23f), (0x2c7f, 0x240),
  (0xa78d, 0x265), (0xa7aa, 0x266), (0xa7ab, 0x25c), (0xa7ac, 0x261), (0xa7ad, 0x26c),
  (0xa7ae, 0x26a), (0xa7b0, 0x29e), (0xa7b1, 0x287), (0xa7b2, 0x29d), (0xa7c5, 0x282)]

def smallLetter (c : Char) : Char :=
  match resizedLetters.lookup c.toNat with
  | some code => Char.ofNat code
  | none => c.toLower

def lowerBytes (s : String) : Bytes :=
  Bytes.ofText (String.ofList (s.toList.map smallLetter))

end MoveCodec.Text
