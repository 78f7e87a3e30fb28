/-!
# Traps

The ways in which running code stops without a result.
-/
namespace MoveCodec.Wasm

inductive Trap where
  | unreachable
  | outOfBounds
  | divideByZero
  deriving DecidableEq, Repr

def Trap.message : Trap → String
  | .unreachable => "unreachable"
  | .outOfBounds => "out of bounds memory access"
  | .divideByZero => "integer divide by zero"

end MoveCodec.Wasm
