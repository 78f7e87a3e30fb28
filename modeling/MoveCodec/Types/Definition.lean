import MoveCodec.Types.Basic

/-!
# Definitions

Struct and enum definitions as a front end hands them over. A few definitions of the standard
library and of the framework have a layout that the virtual machine knows; their tag follows from
where they stand and what they are called, never from a claim.
-/
namespace MoveCodec

inductive Ability where
  | copy
  | drop
  | store
  | key
  deriving DecidableEq, Repr

namespace Ability

/-- The bit of an ability in a set. -/
def flag : Ability → Nat
  | .copy => 1
  | .drop => 2
  | .store => 4
  | .key => 8

def parse? : String → Option Ability
  | "copy" => some .copy
  | "drop" => some .drop
  | "store" => some .store
  | "key" => some .key
  | _ => none

end Ability

structure Abilities where
  copy : Bool := false
  drop : Bool := false
  store : Bool := false
  key : Bool := false
  deriving DecidableEq, Repr

namespace Abilities

def insert (s : Abilities) : Ability → Abilities
  | .copy => { s with copy := true }
  | .drop => { s with drop := true }
  | .store => { s with store := true }
  | .key => { s with key := true }

def contains (s : Abilities) : Ability → Bool
  | .copy => s.copy
  | .drop => s.drop
  | .store => s.store
  | .key => s.key

/-- The sum of the flags of the members. -/
def bits (s : Abilities) : Nat :=
  ([.copy, .drop, .store, .key] : List Ability).foldl
    (fun n a => if s.contains a then n + a.flag else n) 0

end Abilities

/-- The part a struct plays at the boundary: plain data, a revert payload or a log payload. -/
inductive StructRole where
  | plain
  | error
  | event
  deriving DecidableEq, Repr

def StructRole.code : StructRole → Nat
  | .plain => 0
  | .error => 1
  | .event => 2

/-- What the virtual machine knows a definition as. -/
inductive NativeTag where
  | none
  | uid
  | id
  | txContext
  | string
  | bytes (length : Nat)
  deriving DecidableEq, Repr

namespace NativeTag

def code : NativeTag → Nat
  | .none => 0
  | .uid => 1
  | .id => 2
  | .txContext => 3
  | .string => 4
  | .bytes _ => 5

/-- The name of a tag's number; numbers that no tag has are shown as such. -/
def nameOf (code : Nat) : String :=
  (["none", "UID", "ID", "TxContext", "String", "BytesN"][code]?).getD
    ("vm(" ++ toString code ++ ")")

def name (t : NativeTag) : String := nameOf t.code

def bytesLen : NativeTag → Nat
  | .bytes n => n
  | _ => 0

/-- The length in a name such as `Bytes20`: a decimal number from 1 to 32, with an optional plus
sign and leading zeros. -/
def lengthOfName? (name : String) : Option Nat :=
  match name.toList with
  | 'B' :: 'y' :: 't' :: 'e' :: 's' :: rest =>
    let digits := if rest.head? = some '+' then rest.tail else rest
    if digits.isEmpty ∨ !digits.all Char.isDigit then Option.none
    else
      let n := digits.foldl (fun n c => 10 * n + (c.toNat - 48)) 0
      if 1 ≤ n ∧ n ≤ 32 then some n else Option.none
  | _ => Option.none

def reserved (home : ModuleId) (name : String) : NativeTag :=
  if home = .object then
    if name = "UID" then .uid else if name = "ID" then .id else .none
  else if home = .txContext then if name = "TxContext" then .txContext else .none
  else if home = .string then if name = "String" then .string else .none
  else if home = .bytes then ((lengthOfName? name).map NativeTag.bytes).getD .none
  else .none

end NativeTag

structure Field where
  name : String
  type : MoveType
  deriving DecidableEq

structure StructDef where
  id : DefId
  name : String
  fields : List Field := []
  arity : Int := 0
  abilities : Abilities := {}
  role : StructRole := .plain
  /-- Number of leading event fields that are published as topics. -/
  indexed : Int := 0
  tag : NativeTag := .none
  deriving DecidableEq

namespace StructDef

def isObject (d : StructDef) : Bool := d.abilities.key

def type (d : StructDef) (args : List MoveType := []) : MoveType := .struct d.id args

end StructDef

structure Variant where
  name : String
  fields : List Field := []
  deriving DecidableEq

structure EnumDef where
  id : DefId
  name : String
  variants : List Variant
  arity : Int := 0
  abilities : Abilities := {}
  deriving DecidableEq

namespace EnumDef

/-- No variant carries fields. -/
def isSimple (d : EnumDef) : Bool := d.variants.all (·.fields.isEmpty)

def type (d : EnumDef) (args : List MoveType := []) : MoveType := .enum d.id args

end EnumDef

end MoveCodec
