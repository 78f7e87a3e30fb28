import MoveCodec.Text.Printable

/-!
# Quoted text

Messages show names between double quotes. Quotes and backslashes take a backslash, printable
characters stand for themselves, the seven control characters with a letter escape use it, and
every other character is written by its code point.
-/
namespace MoveCodec.Text

/-- The `width` low hexadecimal digits of `n`, lower case, most significant first. -/
def hexDigits : (width n : Nat) → List Char
  | 0, _ => []
  | width + 1, n => hexDigits width (n / 16) ++ [Nat.digitChar (n % 16)]

@[simp] theorem length_hexDigits (width n : Nat) : (hexDigits width n).length = width := by
  induction width generalizing n with
  | zero => rfl
  | succ width ih => simp [hexDigits, ih]

def controlLetter? (c : Char) : Option Char :=
  match c.toNat with
  | 7 => some 'a'
  | 8 => some 'b'
  | 9 => some 't'
  | 10 => some 'n'
  | 11 => some 'v'
  | 12 => some 'f'
  | 13 => some 'r'
  | _ => none

/-- One character as it stands between double quotes. -/
def escapeChar (c : Char) : List Char :=
  if c = '"' ∨ c = '\\' then ['\\', c]
  else if isPrintable c then [c]
  else match controlLetter? c with
    | some l => ['\\', l]
    | none =>
      let code := c.toNat
      if code < 0x20 ∨ code = 0x7f then '\\' :: 'x' :: hexDigits 2 code
      else if code < 0x10000 then '\\' :: 'u' :: hexDigits 4 code
      else '\\' :: 'U' :: hexDigits 8 code

def quote (s : String) : String :=
  String.ofList ('"' :: s.toList.flatMap escapeChar ++ ['"'])

/-- A code point as `U+0067 'g'`; the quoted part is left out when it is not printable. -/
def describeCodePoint (code : Nat) : String :=
  let width := max 4 (Nat.toDigits 16 code).length
  let name := "U+" ++ (String.ofList (hexDigits width code)).toUpper
  let c := Char.ofNat code
  if isPrintable c then name ++ " '" ++ String.singleton c ++ "'" else name

end MoveCodec.Text
