import MoveCodec.Toml.DateTime

/-!
# TOML documents as text

A document is a list of statements: table headers and assignments. The reader accepts newlines,
comments and a trailing comma in inline tables, the escapes `\e` and `\xHH`, and times without
seconds. It only looks at the form; whether the statements fit together is decided when they are
put into a tree.
-/
namespace MoveCodec.Toml

abbrev Key := List String

inductive Expr where
  | string (s : String)
  | integer (n : Int)
  | float
  | bool (b : Bool)
  | dateTime
  | array (items : List Expr)
  | inlineTable (entries : List (Key × Expr))

inductive Statement where
  | table (key : Key)
  | tables (key : Key)
  | assign (key : Key) (value : Expr)

namespace Reader

def isBlank (c : Char) : Bool := c == ' ' || c == '\t'

def isNewline (c : Char) : Bool := c == '\n' || c == '\r'

def skipBlanks (cs : List Char) : List Char := cs.dropWhile isBlank

def skipSpace (inComment : Bool) : List Char → List Char
  | [] => []
  | c :: rest =>
    if inComment then skipSpace (c != '\n') rest
    else if c = '#' then skipSpace true rest
    else if isBlank c || isNewline c then skipSpace false rest
    else c :: rest

/-! ## Strings -/

def escapeLetter? : Char → Option Char
  | 'b' => some '\x08'
  | 't' => some '\t'
  | 'n' => some '\n'
  | 'f' => some '\x0c'
  | 'r' => some '\r'
  | 'e' => some '\x1b'
  | '"' => some '"'
  | '\\' => some '\\'
  | _ => none

def codePoint? (ds : List Char) : Option Char :=
  let n := ofDigits 16 ds
  if ds.all isHexDigit ∧ (n < 0xd800 ∨ (0xe000 ≤ n ∧ n < 0x110000)) then some (Char.ofNat n)
  else none

def cons (c : Option Char) (r : Option (List Char × List Char)) :
    Option (List Char × List Char) := do
  let c ← c
  let (cs, rest) ← r
  return (c :: cs, rest)

/-- The rest of a string between quotes. -/
def basic : List Char → Option (List Char × List Char)
  | '"' :: rest => some ([], rest)
  | '\\' :: 'x' :: a :: b :: rest => cons (codePoint? [a, b]) (basic rest)
  | '\\' :: 'u' :: a :: b :: c :: d :: rest => cons (codePoint? [a, b, c, d]) (basic rest)
  | '\\' :: 'U' :: a :: b :: c :: d :: e :: f :: g :: h :: rest =>
    cons (codePoint? [a, b, c, d, e, f, g, h]) (basic rest)
  | '\\' :: c :: rest => cons (escapeLetter? c) (basic rest)
  | c :: rest => if isNewline c then none else cons (some c) (basic rest)
  | [] => none

/-- The rest of a string between apostrophes. -/
def literal : List Char → Option (List Char × List Char)
  | '\'' :: rest => some ([], rest)
  | c :: rest => if isNewline c then none else cons (some c) (literal rest)
  | [] => none

/-- The end of a multi-line string at a run of three or more quotes: the last three close it, and
at most `extra` may stand before them. -/
def closeRun (quote : Char) (extra : Nat) (cs : List Char) : Option (List Char × List Char) :=
  let run := cs.takeWhile (· == quote)
  if run.length ≤ extra + 3 then some (run.drop 3, cs.dropWhile (· == quote)) else none

/-- A newline right after the opening quotes does not count. -/
def dropFirstNewline : List Char → List Char
  | '\n' :: rest => rest
  | '\r' :: '\n' :: rest => rest
  | cs => cs

/-- What stands before the place where a multi-line string is read. -/
inductive Before where
  | other
  /-- A backslash at the end of a line: blanks and newlines are left out. -/
  | continued
  /-- An escaped backslash: one more quote may follow it at the end. -/
  | backslash
  deriving DecidableEq

def endsLine (cs : List Char) : Bool :=
  (cs.takeWhile fun c => isBlank c || isNewline c).contains '\n'

/-- The rest of a string between triple quotes. -/
def multiline (before : Before) : List Char → Option (List Char × List Char)
  | [] => none
  | '"' :: '"' :: '"' :: rest =>
    closeRun '"' (if before = .backslash then 3 else 2) ('"' :: '"' :: '"' :: rest)
  | '\\' :: 'x' :: a :: b :: rest => cons (codePoint? [a, b]) (multiline .other rest)
  | '\\' :: 'u' :: a :: b :: c :: d :: rest =>
    cons (codePoint? [a, b, c, d]) (multiline .other rest)
  | '\\' :: 'U' :: a :: b :: c :: d :: e :: f :: g :: h :: rest =>
    cons (codePoint? [a, b, c, d, e, f, g, h]) (multiline .other rest)
  | '\\' :: c :: rest =>
    if endsLine (c :: rest) then multiline .continued rest
    else cons (escapeLetter? c) (multiline (if c = '\\' then .backslash else .other) rest)
  | c :: rest =>
    if before = .continued ∧ (isBlank c || isNewline c) then multiline .continued rest
    else cons (some c) (multiline .other rest)

/-- The rest of a string between triple apostrophes. -/
def multilineLiteral : List Char → Option (List Char × List Char)
  | [] => none
  | '\'' :: '\'' :: '\'' :: rest => closeRun '\'' 2 ('\'' :: '\'' :: '\'' :: rest)
  | c :: rest => cons (some c) (multilineLiteral rest)

def text (r : Option (List Char × List Char)) : Option (String × List Char) :=
  r.map fun (cs, rest) => (String.ofList cs, rest)

/-! ## Keys -/

def isBareChar (c : Char) : Bool := c.isAlphanum || c == '_' || c == '-'

def keyPart : List Char → Option (String × List Char)
  | '"' :: rest => text (basic rest)
  | '\'' :: rest => text (literal rest)
  | cs =>
    let name := cs.takeWhile isBareChar
    if name.isEmpty then none else some (String.ofList name, cs.dropWhile isBareChar)

/-- A dotted key up to the character that ends it. Every part takes at least one character, so
`fuel` of the length is enough. -/
def key (stop : Char) : (fuel : Nat) → List Char → Option (Key × List Char)
  | 0, _ => none
  | fuel + 1, cs => do
    let (part, rest) ← keyPart (skipBlanks cs)
    match skipBlanks rest with
    | '.' :: rest =>
      let (parts, rest) ← key stop fuel rest
      return (part :: parts, rest)
    | c :: rest => if c = stop then return ([part], rest) else none
    | [] => none

/-! ## Values -/

def isDateChar (c : Char) : Bool := c.isDigit || "-:Tt .Zz+".contains c

def isFloatChar (c : Char) : Bool := c.isDigit || "_.-+eE".contains c

def number (cs : List Char) : Option (Expr × List Char) :=
  let sign := cs.takeWhile fun c => c == '+' || c == '-'
  let body := cs.drop sign.length
  let isRun (c : Char) : Bool := c.isDigit || c == '_'
  let run := body.takeWhile isRun
  let based (base : Nat) (rest : List Char) : Option (Expr × List Char) := do
    let isPart (c : Char) : Bool := c == '_' || (isHexDigit c && digitValue c < base)
    let n ← basedInteger? base (rest.takeWhile isPart)
    return (.integer n, rest.dropWhile isPart)
  let float : Option (Expr × List Char) :=
    if isFloat (cs.takeWhile isFloatChar) then some (.float, cs.dropWhile isFloatChar) else none
  let integer : Option (Expr × List Char) := do
    let n ← decimalInteger? (sign ++ run)
    return (.integer n, body.drop run.length)
  if 1 < sign.length then none
  else match body, body.drop run.length with
    | 'i' :: 'n' :: 'f' :: rest, _ => some (.float, rest)
    | 'n' :: 'a' :: 'n' :: rest, _ => some (.float, rest)
    | _, '.' :: _ | _, 'e' :: _ | _, 'E' :: _ => float
    | '0' :: 'x' :: rest, _ => if sign.isEmpty then based 16 rest else none
    | '0' :: 'o' :: rest, _ => if sign.isEmpty then based 8 rest else none
    | '0' :: 'b' :: rest, _ => if sign.isEmpty then based 2 rest else none
    | _, '-' :: _ | _, ':' :: _ =>
      if sign.isEmpty ∧ run.all Char.isDigit then
        let token := cs.takeWhile isDateChar
        let trimmed := (token.reverse.dropWhile (· == ' ')).reverse
        if isDateTime trimmed then some (.dateTime, cs.dropWhile isDateChar) else none
      else integer
    | _, _ => integer

mutual

/-- A value. Every call spends fuel; twice the number of characters suffices. -/
def value : (fuel : Nat) → List Char → Option (Expr × List Char)
  | 0, _ => none
  | fuel + 1, cs =>
    match skipBlanks cs with
    | '[' :: rest => do
      let (items, rest) ← items fuel (skipSpace false rest)
      return (.array items, rest)
    | '\x7b' :: rest => do
      let (es, rest) ← entries fuel (skipSpace false rest)
      return (.inlineTable es, rest)
    | '"' :: '"' :: '"' :: rest => do
      let (s, rest) ← text (multiline .other (dropFirstNewline rest))
      return (.string s, rest)
    | '"' :: rest => do
      let (s, rest) ← text (basic rest)
      return (.string s, rest)
    | '\'' :: '\'' :: '\'' :: rest => do
      let (s, rest) ← text (multilineLiteral (dropFirstNewline rest))
      return (.string s, rest)
    | '\'' :: rest => do
      let (s, rest) ← text (literal rest)
      return (.string s, rest)
    | 't' :: 'r' :: 'u' :: 'e' :: rest => some (.bool true, rest)
    | 'f' :: 'a' :: 'l' :: 's' :: 'e' :: rest => some (.bool false, rest)
    | cs => number cs

/-- The items of an array up to its closing bracket. -/
def items : (fuel : Nat) → List Char → Option (List Expr × List Char)
  | 0, _ => none
  | fuel + 1, cs =>
    match cs with
    | ']' :: rest => some ([], rest)
    | cs => do
      let (item, rest) ← value fuel cs
      match skipSpace false rest with
      | ',' :: rest =>
        let (more, rest) ← items fuel (skipSpace false rest)
        return (item :: more, rest)
      | ']' :: rest => return ([item], rest)
      | _ => none

/-- The entries of an inline table up to its closing brace. -/
def entries : (fuel : Nat) → List Char → Option (List (Key × Expr) × List Char)
  | 0, _ => none
  | fuel + 1, cs =>
    match cs with
    | '\x7d' :: rest => some ([], rest)
    | cs => do
      let (k, rest) ← key '=' cs.length cs
      let (v, rest) ← value fuel rest
      match skipSpace false rest with
      | ',' :: rest =>
        let (more, rest) ← entries fuel (skipSpace false rest)
        return ((k, v) :: more, rest)
      | '\x7d' :: rest => return ([(k, v)], rest)
      | _ => none

end

/-! ## Statements -/

def lineEnd (cs : List Char) : Option (List Char) :=
  match skipBlanks cs with
  | [] => some []
  | c :: rest => if c = '#' ∨ isNewline c then some (c :: rest) else none

def statement (cs : List Char) : Option (Statement × List Char) :=
  match cs with
  | '[' :: '[' :: rest => do
    let (k, rest) ← key ']' rest.length rest
    match rest with
    | ']' :: rest => return (.tables k, rest)
    | _ => none
  | '[' :: rest => do
    let (k, rest) ← key ']' rest.length rest
    return (.table k, rest)
  | cs => do
    let (k, rest) ← key '=' cs.length cs
    let (v, rest) ← value (2 * rest.length + 2) rest
    return (.assign k v, rest)

/-- All statements. Each takes at least one character. -/
def statements : (fuel : Nat) → List Char → Option (List Statement)
  | 0, _ => none
  | fuel + 1, cs =>
    match skipSpace false cs with
    | [] => some []
    | cs => do
      let (s, rest) ← statement cs
      let rest ← lineEnd rest
      let ss ← statements fuel rest
      return s :: ss

/-- Control characters other than tab and line ends are not allowed anywhere, and a carriage
return only before a line feed. -/
def isClean : List Char → Bool
  | [] => true
  | '\r' :: '\n' :: rest => isClean rest
  | c :: rest => (c == '\t' || c == '\n' || (32 ≤ c.toNat && c.toNat != 127)) && isClean rest

end Reader

/-- Reads a document. A byte order mark at the start is skipped. -/
def readDocument (source : String) : Option (List Statement) :=
  let cs := match source.toList with
    | '\ufeff' :: rest => rest
    | cs => cs
  if Reader.isClean cs then Reader.statements (cs.length + 1) cs else none

end MoveCodec.Toml
