import MoveCodec.Text.LowerCase
import MoveCodec.Text.Quoted

/-!
# Arguments of a command

Flags may stand anywhere among the arguments. A long flag takes its value after an equals sign or
from the next argument; short flags can be run together. A flag for yes or no needs no value. Two
dashes alone end the flags. Short flags are single bytes.
-/
namespace MoveCodec.Command

inductive FlagKind where
  | boolean
  | integer
  | text
  deriving DecidableEq, Repr

structure Flag where
  name : String
  kind : FlagKind
  short : Option Char := none
  deriving DecidableEq, Repr

def Flag.shown (f : Flag) : String :=
  match f.short with
  | some c => "-" ++ c.toString ++ ", --" ++ f.name
  | none => "--" ++ f.name

/-- Why a text is no value of a flag. -/
inductive ValueFault where
  | malformed
  | outOfRange
  deriving DecidableEq, Repr

def ValueFault.message : ValueFault → String
  | .malformed => "invalid syntax"
  | .outOfRange => "value out of range"

inductive FlagFault where
  | malformed (argument : String)
  | unknown (name : String)
  | unknownShort (c : Char) (cluster : String)
  | noValue (name : String)
  | noValueShort (c : Char) (cluster : String)
  | badValue (flag : Flag) (value : String) (fault : ValueFault)

/-- The character whose code is the first byte of a character. -/
def leadByte (c : Char) : Char :=
  Char.ofNat ((Bytes.ofText c.toString).headD 0).toNat

def quoteChar (c : Char) : String :=
  let body := if c = '\'' then "\\'" else if c = '"' then "\"" else
    String.ofList (Text.escapeChar c)
  "'" ++ body ++ "'"

def FlagFault.message : FlagFault → String
  | .malformed argument => "bad flag syntax: " ++ argument
  | .unknown name => "unknown flag: --" ++ name
  | .unknownShort c cluster =>
    "unknown shorthand flag: " ++ quoteChar (leadByte (leadByte c)) ++ " in -" ++ cluster
  | .noValue name => "flag needs an argument: --" ++ name
  | .noValueShort c cluster => "flag needs an argument: " ++ quoteChar c ++ " in -" ++ cluster
  | .badValue flag value fault =>
    let reader := match flag.kind with
      | .boolean => "strconv.ParseBool"
      | _ => "strconv.ParseInt"
    "invalid argument " ++ Text.quote value ++ " for " ++ Text.quote flag.shown ++ " flag: " ++
      reader ++ ": parsing " ++ Text.quote value ++ ": " ++ fault.message

/-! ## Values -/

def boolean? (s : String) : Option Bool :=
  if s ∈ ["1", "t", "T", "TRUE", "true", "True"] then some true
  else if s ∈ ["0", "f", "F", "FALSE", "false", "False"] then some false
  else none

/-- The value of a digit or letter in bases up to 36. -/
def digit? (c : Char) : Option Nat :=
  let c := c.toLower
  if c.isDigit then some (c.toNat - 48)
  else if 'a' ≤ c ∧ c ≤ 'z' then some (c.toNat - 87)
  else none

def splitBase : List Char → Nat × List Char
  | '0' :: 'b' :: c :: cs | '0' :: 'B' :: c :: cs => (2, c :: cs)
  | '0' :: 'o' :: c :: cs | '0' :: 'O' :: c :: cs => (8, c :: cs)
  | '0' :: 'x' :: c :: cs | '0' :: 'X' :: c :: cs => (16, c :: cs)
  | '0' :: cs => (8, cs)
  | cs => (10, cs)

/-- Reads digits; underscores are skipped. -/
def readDigits (base n : Nat) : List Char → Except ValueFault Nat
  | [] => .ok n
  | '_' :: cs => readDigits base n cs
  | c :: cs =>
    match digit? c with
    | none => .error .malformed
    | some d =>
      if base ≤ d then .error .malformed
      else if UInt64.size ≤ base * n + d then .error .outOfRange
      else readDigits base (base * n + d) cs

/-- Underscores stand between digits; a base mark counts as a digit. -/
def underscoresOk (afterDigit : Bool) : List Char → Bool
  | [] => true
  | ['_'] => false
  | '_' :: c :: cs => afterDigit && c != '_' && underscoresOk true (c :: cs)
  | _ :: cs => underscoresOk true cs

/-- Checks a whole number of 64 bits with a sign. -/
def checkInteger (s : String) : Except ValueFault Unit := do
  let (negative, body) := match s.toList with
    | '-' :: cs => (true, cs)
    | '+' :: cs => (false, cs)
    | cs => (false, cs)
  if body.isEmpty then throw .malformed
  let (base, digits) := splitBase body
  let n ← readDigits base 0 digits
  if body.contains '_' ∧ !underscoresOk (decide (digits.length < body.length)) digits then
    throw .malformed
  let bound := UInt64.size / 2
  if (if negative then bound + 1 else bound) ≤ n then throw .outOfRange

/-! ## Arguments -/

/-- Arguments that were read: the flags that were set, the last first, and the others. -/
structure Arguments where
  flags : List (String × String) := []
  rest : List String := []

namespace Arguments

def boolean (a : Arguments) (name : String) (default : Bool) : Bool :=
  ((a.flags.lookup name).bind boolean?).getD default

def text (a : Arguments) (name default : String) : String := (a.flags.lookup name).getD default

def set (a : Arguments) (f : Flag) (value : String) : Except FlagFault Arguments :=
  let accepted : Except ValueFault Unit := match f.kind with
    | .boolean => if (boolean? value).isSome then .ok () else .error .malformed
    | .integer => checkInteger value
    | .text => .ok ()
  match accepted with
  | .ok () => .ok { a with flags := (f.name, value) :: a.flags }
  | .error fault => .error (.badValue f value fault)

/-- A flag that waits for its value, and the fault if none comes. -/
structure Pending where
  flag : Flag
  fault : FlagFault

def readLong (flags : List Flag) (a : Arguments) (argument body : String) :
    Except FlagFault (Arguments × Option Pending) := do
  if body.startsWith "-" ∨ body.startsWith "=" then throw (.malformed argument)
  let name := String.ofList (body.toList.takeWhile (· != '='))
  match flags.find? (·.name == name) with
  | none => throw (.unknown name)
  | some f =>
    match body.toList.dropWhile (· != '=') with
    | _ :: value => return (← a.set f (String.ofList value), none)
    | [] =>
      if f.kind = .boolean then return (← a.set f "true", none)
      else return (a, some ⟨f, .noValue name⟩)

/-- Reads short flags that are run together. The flags of test programs, which begin with `test.`,
are passed over. -/
def readShort (flags : List Flag) (a : Arguments) : List Char →
    Except FlagFault (Arguments × Option Pending)
  | [] => .ok (a, none)
  | c :: cs => do
    if "test.".toList.isPrefixOf (c :: cs) then return (a, none)
    match flags.find? (·.short == some c) with
    | none => throw (.unknownShort c (String.ofList (c :: cs)))
    | some f =>
      match cs with
      | '=' :: v :: value => return (← a.set f (String.ofList (v :: value)), none)
      | _ =>
        if f.kind = .boolean then readShort flags (← a.set f "true") cs
        else if cs.isEmpty then return (a, some ⟨f, .noValueShort c c.toString⟩)
        else return (← a.set f (String.ofList cs), none)

/-- Reads arguments; `pending` is the flag that takes the next one. -/
def read (flags : List Flag) (a : Arguments) (pending : Option Pending) :
    List String → Except FlagFault Arguments
  | [] =>
    match pending with
    | some p => .error p.fault
    | none => .ok a
  | s :: rest => do
    match pending with
    | some p => read flags (← a.set p.flag s) none rest
    | none =>
      match s.toList with
      | ['-', '-'] => return { a with rest := a.rest ++ rest }
      | '-' :: '-' :: body =>
        let (a, pending) ← readLong flags a s (String.ofList body)
        read flags a pending rest
      | '-' :: c :: cs =>
        let (a, pending) ← readShort flags a (c :: cs)
        read flags a pending rest
      | _ => read flags { a with rest := a.rest ++ [s] } none rest

end Arguments

/-! ## The name of a command -/

def takesNext (flags : List Flag) (s : String) : Bool :=
  match s.toList with
  | '-' :: '-' :: body =>
    !body.contains '=' && !flags.any fun f => f.kind == .boolean && f.name.toList == body
  | ['-', c] =>
    c.toNat < 128 && c != '=' && !flags.any fun f => f.kind == .boolean && f.short == some c
  | _ => false

def plainArguments (flags : List Flag) (skip : Bool) : List String → List String
  | [] => []
  | s :: rest =>
    if skip then plainArguments flags false rest
    else if s = "--" then []
    else if takesNext flags s then
      if rest.length ≤ 1 then [] else plainArguments flags true rest
    else if s = "" ∨ s.startsWith "-" then plainArguments flags false rest
    else s :: plainArguments flags false rest

def removeWord (flags : List Flag) (word : String) (skip : Bool) : List String → List String
  | [] => []
  | s :: rest =>
    if skip then s :: removeWord flags word false rest
    else if s = "--" then s :: rest
    else if takesNext flags s then s :: removeWord flags word true rest
    else if !s.startsWith "-" ∧ s = word then rest
    else s :: removeWord flags word false rest

/-! ## Suggestions -/

def editRow (c : UInt8) (target : Bytes) (above : List Nat) : List Nat :=
  let cells := target.zip (above.zip above.tail)
  let first := above.headD 0 + 1
  (cells.foldl (fun (row : List Nat) (t, diagonal, up) =>
    let left := row.headD 0
    (if t = c then diagonal else 1 + min diagonal (min up left)) :: row) [first]).reverse

/-- The least number of insertions, deletions and replacements of bytes between two words. -/
def editDistance (a b : Bytes) : Nat :=
  (a.foldl (fun row c => editRow c b row) (List.range (b.length + 1))).getLastD 0

/-- The names close to a word: two edits away, or starting with it. Case does not count. -/
def suggestions (names : List String) (word : String) : List String :=
  let typed := Text.lowerBytes word
  names.filter fun n =>
    let name := Bytes.ofText n
    decide (editDistance typed name ≤ 2) || typed.isPrefixOf name

end MoveCodec.Command
