/-!
# Numbers in TOML

Integers are decimal, or have a base mark and no sign. Underscores stand between digits only, and
a decimal number has no leading zero. An integer has 64 bits and a float must not overflow.
-/
namespace MoveCodec.Toml

def isHexDigit (c : Char) : Bool :=
  c.isDigit || ('a' ≤ c && c ≤ 'f') || ('A' ≤ c && c ≤ 'F')

def digitValue (c : Char) : Nat :=
  if c.isDigit then c.toNat - 48
  else if 'a' ≤ c ∧ c ≤ 'f' then c.toNat - 87
  else c.toNat - 55

def ofDigits (base : Nat) (cs : List Char) : Nat :=
  cs.foldl (fun n c => base * n + digitValue c) 0

def digits? (isDigit : Char → Bool) : List Char → Option (List Char)
  | [] => none
  | [c] => if isDigit c then some [c] else none
  | c :: '_' :: rest => if isDigit c then (digits? isDigit rest).map (c :: ·) else none
  | c :: rest => if isDigit c then (digits? isDigit rest).map (c :: ·) else none

/-- Splits off a sign; `true` for minus. -/
def splitSign : List Char → Bool × List Char
  | '-' :: rest => (true, rest)
  | '+' :: rest => (false, rest)
  | cs => (false, cs)

/-- Decimal digits without a leading zero. -/
def decimal? (cs : List Char) : Option (List Char) :=
  match digits? Char.isDigit cs with
  | some ('0' :: _ :: _) => none
  | ds => ds

def inRange (n : Int) : Option Int :=
  if Int64.minValue.toInt ≤ n ∧ n ≤ Int64.maxValue.toInt then some n else none

def decimalInteger? (cs : List Char) : Option Int := do
  let (negative, cs) := splitSign cs
  let n := ofDigits 10 (← decimal? cs)
  inRange (if negative then -n else n)

def basedInteger? (base : Nat) (cs : List Char) : Option Int := do
  let ds ← digits? (fun c => isHexDigit c && digitValue c < base) cs
  inRange (ofDigits base ds)

/-- The digits and the exponent are too large for a double: the number is at least halfway
between the largest double and the next power of two. -/
def overflows (digits : List Char) (exponent : Int) : Bool :=
  let significant := digits.dropWhile (· == '0')
  let m := ofDigits 10 significant
  let top : Int := significant.length + exponent
  if significant.isEmpty then false
  else if 310 ≤ top then true
  else if top ≤ 308 then false
  else
    let bound := Nat.pow 2 1024 - Nat.pow 2 970
    if 0 ≤ exponent then bound ≤ m * Nat.pow 10 exponent.toNat
    else bound * Nat.pow 10 (-exponent).toNat ≤ m

/-- The value of an exponent's digits. No digit is read after the value has reached ten thousand,
which is far beyond the exponents of doubles. -/
def exponentOf (ds : List Char) : Nat :=
  ds.foldl (fun e c => if e < 10000 then 10 * e + digitValue c else e) 0

/-- The text is a float: digits with a fraction, an exponent or both. -/
def isFloat (cs : List Char) : Bool :=
  let (_, cs) := splitSign cs
  let isMark (c : Char) : Bool := c == 'e' || c == 'E'
  let mantissa := cs.takeWhile fun c => !isMark c
  let tail := cs.dropWhile fun c => !isMark c
  let whole := mantissa.takeWhile (· != '.')
  let fraction : Option (List Char) :=
    match mantissa.dropWhile (· != '.') with
    | [] => some []
    | _ :: ds => digits? Char.isDigit ds
  let exponent : Option Int :=
    match tail with
    | [] => some 0
    | _ :: ds =>
      let (negative, ds) := splitSign ds
      (digits? Char.isDigit ds).map fun ds =>
        let n : Int := exponentOf ds
        if negative then -n else n
  match decimal? whole, fraction, exponent with
  | some whole, some fraction, some e =>
    !overflows (whole ++ fraction) (e - fraction.length)
  | _, _, _ => false

end MoveCodec.Toml
