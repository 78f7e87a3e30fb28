import MoveCodec.Wasm.Code

/-!
# Writing code

Short names for the steps that generated code is made of. Memory is accessed without alignment.
-/
namespace MoveCodec.Wasm.Emit

abbrev push (x : UInt32) : Step := .op (.localGet x)
abbrev pop (x : UInt32) : Step := .op (.localSet x)
/-- Copies the top of the stack into a local. -/
abbrev keep (x : UInt32) : Step := .op (.localTee x)
abbrev pushGlobal (x : UInt32) : Step := .op (.globalGet x)
abbrev popGlobal (x : UInt32) : Step := .op (.globalSet x)
abbrev const (v : UInt32) : Step := .op (.i32Const v)
abbrev const64 (v : UInt64) : Step := .op (.i64Const v)
abbrev call (f : UInt32) : Step := .op (.call f)
abbrev br (label : UInt32) : Step := .op (.br label)
abbrev brIf (label : UInt32) : Step := .op (.brIf label)

abbrev load (offset : UInt32) : Step := .op (.load .i32 0 offset)
abbrev load8 (offset : UInt32) : Step := .op (.load .i32From8 0 offset)
abbrev load64 (offset : UInt32) : Step := .op (.load .i64 0 offset)
abbrev store (offset : UInt32) : Step := .op (.store .i32 0 offset)
abbrev store8 (offset : UInt32) : Step := .op (.store .i32To8 0 offset)
abbrev store64 (offset : UInt32) : Step := .op (.store .i64 0 offset)
abbrev copy : Step := .op .memoryCopy
abbrev fill : Step := .op .memoryFill

abbrev add : Step := .op (.i32Bin .add)
abbrev sub : Step := .op (.i32Bin .sub)
abbrev mul : Step := .op (.i32Bin .mul)
abbrev band : Step := .op (.i32Bin .and)
abbrev bor : Step := .op (.i32Bin .or)
abbrev shl : Step := .op (.i32Bin .shl)
abbrev shr : Step := .op (.i32Bin .shrU)
abbrev rotl : Step := .op (.i32Bin .rotl)
abbrev rotr : Step := .op (.i32Bin .rotr)
abbrev eqz : Step := .op .i32Eqz
abbrev eq : Step := .op (.i32Rel .eq)
abbrev ne : Step := .op (.i32Rel .ne)
abbrev lt : Step := .op (.i32Rel .ltU)
abbrev gt : Step := .op (.i32Rel .gtU)
abbrev ge : Step := .op (.i32Rel .geU)

abbrev add64 : Step := .op (.i64Bin .add)
abbrev or64 : Step := .op (.i64Bin .or)
abbrev shl64 : Step := .op (.i64Bin .shl)
abbrev shr64 : Step := .op (.i64Bin .shrU)
abbrev eq64 : Step := .op (.i64Rel .eq)
abbrev lt64 : Step := .op (.i64Rel .ltU)
abbrev wrap : Step := .op .wrap
abbrev extend : Step := .op .extend

abbrev unreachable : Step := .op .unreachable

/-- Traps unless the top of the stack is zero. -/
def trapIf : Step := .branch .void [unreachable] []

/-- Runs `yes` unless the top of the stack is zero. -/
abbrev when (yes : Code) : Step := .branch .void yes []

/-- The sum of a local and a constant. -/
def addr (x n : UInt32) : Code := push x :: if n = 0 then [] else [const n, add]

/-- Repeats `body` until it jumps to label 1. -/
def forever (body : Code) : Step := .block .void [.loop .void (body ++ [br 0])]

/-- Runs `body` once for each value of the local `i` below the local `n`. -/
def upTo (i n : UInt32) (body : Code) : Step :=
  forever ([push i, push n, ge, brIf 1] ++ body ++ [push i, const 1, add, pop i])

end MoveCodec.Wasm.Emit
