import MoveCodec.Types.Basic

/-!
# Components and substitution

The components of a type are the type itself and, in pre-order, those of its element, its referent
or its type arguments; fields of definitions do not count. A type is concrete when no component is
a type parameter. Substitution replaces each parameter by the argument at its index.
-/
namespace MoveCodec.MoveType

mutual

def parts : MoveType → List MoveType
  | .vector e => .vector e :: parts e
  | .ref m t => .ref m t :: parts t
  | .struct id args => .struct id args :: partsAll args
  | .enum id args => .enum id args :: partsAll args
  | t => [t]

def partsAll : List MoveType → List MoveType
  | [] => []
  | t :: ts => parts t ++ partsAll ts

end

/-- The components up to the first that `stop` holds of, that one included, and whether there is
none. -/
def walk (stop : MoveType → Bool) (t : MoveType) : List MoveType × Bool :=
  let (before, rest) := t.parts.span (fun p => !stop p)
  (before ++ rest.take 1, rest.isEmpty)

def isParam : MoveType → Bool
  | .param _ => true
  | _ => false

def isConcrete (t : MoveType) : Bool := t.parts.all fun p => !p.isParam

/-- The first parameter, in pre-order, that has no argument among `arity`. -/
def unboundParam? (arity : Int) (t : MoveType) : Option UInt16 :=
  t.parts.findSome? fun
    | .param i => if arity ≤ i.toNat then some i else none
    | _ => none

mutual

def substitute (args : List MoveType) : MoveType → Except Error MoveType
  | .param i =>
    match args[i.toNat]? with
    | some a => .ok a
    | none => .error (.outOfBounds .types [] i.toNat args.length)
  | .vector e => .vector <$> substitute args e
  | .ref m t => .ref m <$> substitute args t
  | .struct id ts => .struct id <$> substituteAll args ts
  | .enum id ts => .enum id <$> substituteAll args ts
  | .bool => .ok .bool
  | .int w => .ok (.int w)
  | .address => .ok .address
  | .signer => .ok .signer

def substituteAll (args : List MoveType) : List MoveType → Except Error (List MoveType)
  | [] => .ok []
  | t :: ts => do
    let t ← substitute args t
    let ts ← substituteAll args ts
    return t :: ts

end

end MoveCodec.MoveType
