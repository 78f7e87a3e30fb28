import MoveCodec.Text.Quoted

/-!
# JSON text

Texts are escaped so that they can stand in a web page: angle brackets, the ampersand and the two
Unicode line ends are written by their code points. Everything else beyond ASCII stands for itself.
-/
namespace MoveCodec.Format

inductive Json where
  | null
  | bool (b : Bool)
  | string (s : String)
  | array (items : List Json)
  | object (fields : List (String × Json))

namespace Json

def escapeChar (c : Char) : List Char :=
  match c with
  | '"' => ['\\', '"']
  | '\\' => ['\\', '\\']
  | '\n' => ['\\', 'n']
  | '\r' => ['\\', 'r']
  | '\t' => ['\\', 't']
  | c =>
    if c.toNat < 32 ∨ c ∈ ['<', '>', '&', '\u2028', '\u2029'] then
      '\\' :: 'u' :: Text.hexDigits 4 c.toNat
    else [c]

def quote (s : String) : String := "\"" ++ String.ofList (s.toList.flatMap escapeChar) ++ "\""

/-- Items between brackets, divided by commas. -/
def enclose (opening closing : String) (items : List String) : String :=
  opening ++ ",".intercalate items ++ closing

mutual

/-- The text without blanks between tokens. -/
def compact : Json → String
  | .null => "null"
  | .bool b => if b then "true" else "false"
  | .string s => quote s
  | .array items => enclose "[" "]" (compactItems items)
  | .object fields => enclose "\x7b" "\x7d" (compactFields fields)

def compactItems : List Json → List String
  | [] => []
  | j :: js => compact j :: compactItems js

def compactFields : List (String × Json) → List String
  | [] => []
  | (k, j) :: rest => (quote k ++ ":" ++ compact j) :: compactFields rest

end

/-- Items between brackets, each on a line of its own behind `margin` and two blanks. -/
def spread (margin opening closing : String) (items : List String) : String :=
  if items.isEmpty then opening ++ closing
  else
    let inner := "\n" ++ margin ++ "  "
    opening ++ inner ++ ("," ++ inner).intercalate items ++ "\n" ++ margin ++ closing

mutual

/-- The text with one item or field on a line, inner lines behind `margin`. -/
def indented (margin : String) : Json → String
  | .null => "null"
  | .bool b => if b then "true" else "false"
  | .string s => quote s
  | .array items => spread margin "[" "]" (indentedItems (margin ++ "  ") items)
  | .object fields => spread margin "\x7b" "\x7d" (indentedFields (margin ++ "  ") fields)

def indentedItems (margin : String) : List Json → List String
  | [] => []
  | j :: js => indented margin j :: indentedItems margin js

def indentedFields (margin : String) : List (String × Json) → List String
  | [] => []
  | (k, j) :: rest => (quote k ++ ": " ++ indented margin j) :: indentedFields margin rest

end

end Json

end MoveCodec.Format
