/-!
# Camel case

External names are camel case. A letter that follows a digit or one of the separators `_`, `-`,
`.` and blank is raised, a run of capitals keeps only its first, and everything that is neither an
ASCII letter nor a digit is dropped. Only the separators raise the next letter: any other dropped
character does not.
-/
namespace MoveCodec.Text

/-- Blanks that are stripped from both ends of a name: the characters with the Unicode property
White_Space. -/
def isBlank (c : Char) : Bool :=
  let code := c.toNat
  (9 ≤ code && code ≤ 13) || code = 0x20 || code = 0x85 || code = 0xa0 || code = 0x1680 ||
    (0x2000 ≤ code && code ≤ 0x200a) || code = 0x2028 || code = 0x2029 || code = 0x202f ||
    code = 0x205f || code = 0x3000

/-- Characters without the blanks at both ends. -/
def trimBlanks (cs : List Char) : List Char :=
  ((cs.dropWhile isBlank).reverse.dropWhile isBlank).reverse

inductive LetterCase where
  | raised
  | lowered
  | kept
  deriving DecidableEq, Repr

def LetterCase.apply : LetterCase → Char → Char
  | .raised, c => c.toUpper
  | .lowered, c => c.toLower
  | .kept, c => c

/-- Camel case of the rest of a name, when the next letter is written as `next` says. -/
def camelFrom (next : LetterCase) : List Char → List Char
  | [] => []
  | c :: rest =>
    if c.isUpper then next.apply c :: camelFrom .lowered rest
    else if c.isLower then
      (if next = .raised then c.toUpper else c) :: camelFrom .kept rest
    else if c.isDigit then c :: camelFrom .raised rest
    else camelFrom (if c = '_' ∨ c = ' ' ∨ c = '-' ∨ c = '.' then .raised else .kept) rest

def lowerCamel (s : String) : String :=
  String.ofList (camelFrom .lowered (trimBlanks s.toList))

def upperCamel (s : String) : String :=
  String.ofList (camelFrom .raised (trimBlanks s.toList))

end MoveCodec.Text
