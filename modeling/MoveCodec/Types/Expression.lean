import MoveCodec.Types.Substitution

/-!
# Type expressions

Reads texts such as `vector<Pair<u8,address>>`, `&mut Counter` and `T0`. Blanks and tabs may stand
before every token. A name that is no keyword and no type parameter is given, with its arguments,
to a resolver. Positions in messages count UTF-8 bytes.
-/
namespace MoveCodec.Expression

abbrev Resolver := String → List MoveType → Except Error MoveType

/-- Characters of names, which may be qualified. -/
def isNameChar (c : Char) : Bool :=
  c == '_' || c == ':' || c.isAlpha || c.isDigit

def skipBlanks (cs : List Char) : List Char := cs.dropWhile fun c => c == ' ' || c == '\t'

/-- What stands after a one-character token, if it comes next. -/
def after? (token : Char) (cs : List Char) : Option (List Char) :=
  match skipBlanks cs with
  | c :: rest => if c = token then some rest else none
  | [] => none

/-- The types that have a name of their own. -/
def keyword? : String → Option MoveType
  | "bool" => some .bool
  | "u8" => some (.int .w8)
  | "u16" => some (.int .w16)
  | "u32" => some (.int .w32)
  | "u64" => some (.int .w64)
  | "u128" => some (.int .w128)
  | "u256" => some (.int .w256)
  | "address" => some .address
  | "signer" => some .signer
  | _ => none

/-- The index in a name such as `T12`: a decimal number below `2 ^ 16`. -/
def paramIndex? (name : List Char) : Option UInt16 :=
  match name with
  | 'T' :: digits =>
    if digits.isEmpty ∨ !digits.all Char.isDigit then none
    else
      let n := digits.foldl (fun n c => 10 * n + (c.toNat - 48)) 0
      if n < 65536 then some (UInt16.ofNat n) else none
  | _ => none

section Reader

variable (source : String) (resolve : Option Resolver)

def refuse {α : Type} (detail : String) : Except Error α :=
  .error (.invalidInput .types source detail)

/-- The number of bytes before the unread rest. -/
def offset (rest : List Char) : Nat :=
  source.utf8ByteSize - (String.ofList rest).utf8ByteSize

mutual

/-- Reads one type and gives the unread rest. Every step spends fuel; twice the number of
characters suffices. -/
def readType : Nat → List Char → Except Error (MoveType × List Char)
  | 0, cs => refuse source ("expected type at offset " ++ toString (offset source cs))
  | fuel + 1, cs =>
    match after? '&' cs with
    | some rest =>
      match skipBlanks rest with
      | 'm' :: 'u' :: 't' :: ' ' :: rest => do
        let (t, rest) ← readType fuel rest
        return (.ref true t, rest)
      | rest => do
        let (t, rest) ← readType fuel rest
        return (.ref false t, rest)
    | none =>
      let cs := skipBlanks cs
      let name := cs.takeWhile isNameChar
      let rest := cs.dropWhile isNameChar
      if name.isEmpty then
        refuse source ("expected type at offset " ++ toString (offset source cs))
      else
        let text := String.ofList name
        match keyword? text, paramIndex? name with
        | some t, _ => .ok (t, rest)
        | none, some i => .ok (.param i, rest)
        | none, none => do
          let (args, rest) ← match after? '<' rest with
            | some rest => readArguments fuel rest
            | none => pure ([], skipBlanks rest)
          if text = "vector" then
            match args with
            | [e] => return (.vector e, rest)
            | _ =>
              refuse source ("vector takes one type argument, got " ++ toString args.length)
          else
            match resolve with
            | some resolve => return (← resolve text args, rest)
            | none => refuse source ("unknown type " ++ Text.quote text)

def readArguments : Nat → List Char → Except Error (List MoveType × List Char)
  | 0, cs => refuse source ("expected type at offset " ++ toString (offset source cs))
  | fuel + 1, cs => do
    let (t, rest) ← readType fuel cs
    match after? '>' rest, after? ',' rest with
    | some rest, _ => return ([t], rest)
    | none, some rest =>
      let (ts, rest) ← readArguments fuel rest
      return (t :: ts, rest)
    | none, none =>
      refuse source
        ("expected ',' or '>' at offset " ++ toString (offset source (skipBlanks rest)))

end

/-- Reads an expression that is one type and nothing else. Without a resolver every name is
unknown. -/
def parse : Except Error MoveType := do
  let cs := source.toList
  let (t, rest) ← readType source resolve (2 * cs.length + 2) cs
  match skipBlanks rest with
  | [] => return t
  | rest => refuse source ("unexpected " ++ Text.quote (String.ofList rest))

end Reader

end MoveCodec.Expression
