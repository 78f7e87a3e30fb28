import MoveCodec.Toml.Number

/-!
# Dates and times in TOML

A date, a time, or both with an optional offset. Seconds may be left out. Only whether a text is
a date or time matters here, its value is never used.
-/
namespace MoveCodec.Toml

def twoDigits? : List Char → Option (Nat × List Char)
  | a :: b :: rest =>
    if a.isDigit ∧ b.isDigit then some (ofDigits 10 [a, b], rest) else none
  | _ => none

def isLeapYear (year : Nat) : Bool := year % 4 == 0 && (year % 100 != 0 || year % 400 == 0)

def daysIn (year month : Nat) : Nat :=
  if month = 2 then (if isLeapYear year then 29 else 28)
  else if month ∈ [4, 6, 9, 11] then 30
  else 31

def date? : List Char → Option (List Char)
  | a :: b :: c :: d :: '-' :: rest =>
    if [a, b, c, d].all Char.isDigit then
      match twoDigits? rest with
      | some (month, '-' :: rest) =>
        match twoDigits? rest with
        | some (day, rest) =>
          if 1 ≤ month ∧ month ≤ 12 ∧ 1 ≤ day ∧ day ≤ daysIn (ofDigits 10 [a, b, c, d]) month then
            some rest
          else none
        | none => none
      | _ => none
    else none
  | _ => none

def skipFraction : List Char → List Char
  | '.' :: d :: rest => if d.isDigit then rest.dropWhile Char.isDigit else '.' :: d :: rest
  | cs => cs

/-- Reads `hour:minute` with optional seconds and fraction. -/
def time? (cs : List Char) : Option (List Char) :=
  match twoDigits? cs with
  | some (hour, ':' :: rest) =>
    match twoDigits? rest with
    | some (minute, rest) =>
      if 24 ≤ hour ∨ 60 ≤ minute then none
      else match rest with
        | ':' :: rest =>
          match twoDigits? rest with
          | some (second, rest) => if 60 ≤ second then none else some (skipFraction rest)
          | none => none
        | rest => some rest
    | none => none
  | _ => none

/-- The rest of a time is an offset: `Z`, or hours and minutes behind a sign. -/
def isOffset : List Char → Bool
  | ['Z'] => true
  | sign :: rest =>
    (sign == '+' || sign == '-') &&
      match twoDigits? rest with
      | some (hours, ':' :: rest) =>
        match twoDigits? rest with
        | some (minutes, []) => hours ≤ 24 && minutes ≤ 60
        | _ => false
      | _ => false
  | [] => false

/-- The text is a date, a time, or a date and a time with or without an offset. Date and time are
divided by a letter or a blank. -/
def isDateTime (cs : List Char) : Bool :=
  let upper (c : Char) : Char := if c == 't' || c == ' ' then 'T' else if c == 'z' then 'Z' else c
  let cs := cs.map upper
  match date? cs with
  | some [] => true
  | some ('T' :: rest) =>
    match time? rest with
    | some [] => true
    | some rest => isOffset rest
    | none => false
  | some _ => false
  | none => time? cs == some []

end MoveCodec.Toml
