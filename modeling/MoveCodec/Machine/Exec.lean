import MoveCodec.Machine.Host
import MoveCodec.Wasm.Code
import MoveCodec.Wasm.Module

/-!
# Execution

Runs structured code on a stack of values. A body either runs to its end, jumps to an enclosing
block, returns from its function, or halts. Blocks, loops and calls spend fuel, straight code does
not; running out of fuel is a way to halt of its own, and so is code that does not fit its
operands.
-/
namespace MoveCodec.Machine

open Wasm

inductive Value where
  | i32 (v : UInt32)
  | i64 (v : UInt64)
  deriving DecidableEq, Repr

namespace Value

def type : Value → ValType
  | .i32 _ => .i32
  | .i64 _ => .i64

def ofConst : Const → Value
  | .i32 v => .i32 v
  | .i64 v => .i64 v

/-- What a local of a type starts with. -/
def zero (t : ValType) : Value := if t = .i64 then .i64 0 else .i32 0

def toNat : Value → Nat
  | .i32 v => v.toNat
  | .i64 v => v.toNat

def ofNat (t : ValType) (n : Nat) : Value :=
  if t = .i64 then .i64 (UInt64.ofNat n) else .i32 (UInt32.ofNat n)

end Value

structure Store where
  memory : Memory
  globals : Array Value
  host : Host

structure State where
  store : Store
  locals : Array Value
  stack : List Value

inductive Halt where
  | trap (t : Trap)
  | host (e : Error)
  /-- The code does not fit its operands. -/
  | stuck
  | outOfFuel
  deriving DecidableEq

inductive Result where
  | next (s : State)
  | jump (label : Nat) (s : State)
  | ret (s : State)
  | halt (h : Halt) (store : Store)

inductive Callee where
  | host (f : HostFunc)
  | code (type : FuncType) (locals : List ValType) (body : Code)

/-- What a run does not change: types and functions by index. -/
structure Program where
  types : Array FuncType
  funcs : Array Callee

namespace LoadOp

def width : LoadOp → Nat
  | .i32 => 4
  | .i64 => 8
  | .i32From8 => 1
  | .i32From16 => 2
  | .i64From8 => 1
  | .i64From32 => 4

def value : LoadOp → Bytes → Value
  | .i32, bs | .i32From8, bs | .i32From16, bs => .i32 (UInt32.ofNat (Bytes.toNatLE bs))
  | .i64, bs | .i64From8, bs | .i64From32, bs => .i64 (UInt64.ofNat (Bytes.toNatLE bs))

end LoadOp

def StoreOp.bytes? : StoreOp → Value → Option Bytes
  | .i32, .i32 v => some (Bytes.ofNatLE 4 v.toNat)
  | .i64, .i64 v => some (Bytes.ofNatLE 8 v.toNat)
  | .i32To8, .i32 v => some (Bytes.ofNatLE 1 v.toNat)
  | .i32To16, .i32 v => some (Bytes.ofNatLE 2 v.toNat)
  | .i64To8, .i64 v => some (Bytes.ofNatLE 1 v.toNat)
  | _, _ => none

/-- `none` is a division by zero. -/
def I32Op.eval? : I32Op → UInt32 → UInt32 → Option UInt32
  | .add, a, b => some (a + b)
  | .sub, a, b => some (a - b)
  | .mul, a, b => some (a * b)
  | .divU, a, b => if b = 0 then none else some (a / b)
  | .and, a, b => some (a &&& b)
  | .or, a, b => some (a ||| b)
  | .xor, a, b => some (a ^^^ b)
  | .shl, a, b => some (a <<< b)
  | .shrU, a, b => some (a >>> b)
  | .rotl, a, b => some ((a <<< b) ||| (a >>> (32 - b)))
  | .rotr, a, b => some ((a >>> b) ||| (a <<< (32 - b)))

def I32Rel.eval : I32Rel → UInt32 → UInt32 → Bool
  | .eq, a, b => a == b
  | .ne, a, b => a != b
  | .ltU, a, b => a < b
  | .gtU, a, b => b < a
  | .leU, a, b => a ≤ b
  | .geU, a, b => b ≤ a

def I64Op.eval : I64Op → UInt64 → UInt64 → UInt64
  | .add, a, b => a + b
  | .sub, a, b => a - b
  | .and, a, b => a &&& b
  | .or, a, b => a ||| b
  | .shl, a, b => a <<< b
  | .shrU, a, b => a >>> b
  | .rotl, a, b => (a <<< b) ||| (a >>> (64 - b))

def I64Rel.eval : I64Rel → UInt64 → UInt64 → Bool
  | .eq, a, b => a == b
  | .ne, a, b => a != b
  | .ltU, a, b => a < b
  | .gtU, a, b => b < a

def Value.ofBool (b : Bool) : Value := .i32 (if b then 1 else 0)

namespace State

def stuck (s : State) : Result := .halt .stuck s.store

def trap (s : State) (t : Trap) : Result := .halt (.trap t) s.store

def goOn (s : State) (stack : List Value) : Result := .next { s with stack }

def goOnWith (s : State) (memory : Memory) (stack : List Value) : Result :=
  .next { s with store := { s.store with memory }, stack }

/-- Writes bytes and goes on with another stack; traps when they do not fit. The memory is taken
out of the state, so that it is changed in place. -/
def write (s : State) (a : Nat) (bs : Bytes) (stack : List Value) : Result :=
  match s with
  | ⟨⟨memory, globals, host⟩, locals, _⟩ =>
    if a + bs.length ≤ memory.size then
      .next ⟨⟨memory.splice a bs, globals, host⟩, locals, stack⟩
    else .halt (.trap .outOfBounds) ⟨memory, globals, host⟩

end State

def step (o : Op) (s : State) : Result :=
  match o, s.stack with
  | .unreachable, _ => s.trap .unreachable
  | .nop, _ => .next s
  | .br l, _ => .jump l.toNat s
  | .brIf l, .i32 c :: stack =>
    if c = 0 then s.goOn stack else .jump l.toNat { s with stack }
  | .brTable ls d, .i32 i :: stack => .jump (ls.getD i.toNat d).toNat { s with stack }
  | .ret, _ => .ret s
  | .drop, _ :: stack => s.goOn stack
  | .select, .i32 c :: b :: a :: stack => s.goOn ((if c = 0 then b else a) :: stack)
  | .localGet x, stack =>
    match s.locals[x.toNat]? with
    | some v => s.goOn (v :: stack)
    | none => s.stuck
  | .localSet x, v :: stack =>
    .next { s with locals := s.locals.setIfInBounds x.toNat v, stack }
  | .localTee x, v :: stack =>
    .next { s with locals := s.locals.setIfInBounds x.toNat v, stack := v :: stack }
  | .globalGet x, stack =>
    match s.store.globals[x.toNat]? with
    | some v => s.goOn (v :: stack)
    | none => s.stuck
  | .globalSet x, v :: stack =>
    .next { s with
      store := { s.store with globals := s.store.globals.setIfInBounds x.toNat v }, stack }
  | .load op _ offset, .i32 a :: stack =>
    match s.store.memory.read? (a.toNat + offset.toNat) (LoadOp.width op) with
    | some bs => s.goOn (LoadOp.value op bs :: stack)
    | none => s.trap .outOfBounds
  | .store op _ offset, v :: .i32 a :: stack =>
    match StoreOp.bytes? op v with
    | some bs => s.write (a.toNat + offset.toNat) bs stack
    | none => s.stuck
  | .memorySize, stack => s.goOn (.i32 (UInt32.ofNat s.store.memory.pages.size) :: stack)
  | .memoryGrow, .i32 n :: stack =>
    let old := s.store.memory.pages.size
    match s.store.memory.grow? n.toNat with
    | some m => s.goOnWith m (.i32 (UInt32.ofNat old) :: stack)
    | none => s.goOn (.i32 0xffffffff :: stack)
  | .memoryCopy, .i32 n :: .i32 src :: .i32 dst :: stack =>
    match s.store.memory.read? src.toNat n.toNat with
    | some bs => s.write dst.toNat bs stack
    | none => s.trap .outOfBounds
  | .memoryFill, .i32 n :: .i32 v :: .i32 dst :: stack =>
    if dst.toNat + n.toNat ≤ s.store.memory.size then
      s.write dst.toNat (List.replicate n.toNat v.toUInt8) stack
    else s.trap .outOfBounds
  | .i32Const v, stack => s.goOn (.i32 v :: stack)
  | .i64Const v, stack => s.goOn (.i64 v :: stack)
  | .i32Eqz, .i32 a :: stack => s.goOn (Value.ofBool (a == 0) :: stack)
  | .i32Rel r, .i32 b :: .i32 a :: stack => s.goOn (Value.ofBool (I32Rel.eval r a b) :: stack)
  | .i32Bin o, .i32 b :: .i32 a :: stack =>
    match I32Op.eval? o a b with
    | some v => s.goOn (.i32 v :: stack)
    | none => s.trap .divideByZero
  | .i64Eqz, .i64 a :: stack => s.goOn (Value.ofBool (a == 0) :: stack)
  | .i64Rel r, .i64 b :: .i64 a :: stack => s.goOn (Value.ofBool (I64Rel.eval r a b) :: stack)
  | .i64Bin o, .i64 b :: .i64 a :: stack => s.goOn (.i64 (I64Op.eval o a b) :: stack)
  | .wrap, .i64 a :: stack => s.goOn (.i32 a.toUInt32 :: stack)
  | .extend, .i32 a :: stack => s.goOn (.i64 a.toUInt64 :: stack)
  | _, _ => s.stuck

/-- Numbers of values a block takes and gives. -/
def blockArity (p : Program) (t : BlockType) : Nat × Nat :=
  if t = -64 then (0, 0)
  else if t < 0 then (0, 1)
  else match p.types[t.toInt.toNat]? with
    | some ft => (ft.params.length, ft.results.length)
    | none => (0, 0)

@[specialize]
def runWith (one : Step → State → Result) : Code → State → Result
  | [], s => .next s
  | c :: rest, s =>
    match one c s with
    | .next s => runWith one rest s
    | r => r

/-- Leaves a block whose end or whose label was reached with the top `n` values. -/
def State.leave (s : State) (n : Nat) (below : List Value) : State :=
  { s with stack := s.stack.take n ++ below }

section

variable (p : Program)

/-- Arguments, in order, and the stack below them. -/
def popArgs (n : Nat) (stack : List Value) : Option (List Value × List Value) :=
  if n ≤ stack.length then some ((stack.take n).reverse, stack.drop n) else none

def hostArgs? (vs : List Value) : Option (List UInt32) :=
  vs.mapM fun
    | .i32 v => some v
    | .i64 _ => none

def runStep : (fuel : Nat) → Step → State → Result
  | fuel, .op o, s =>
    match o with
    | .call f =>
      match p.funcs[f.toNat]? with
      | none => s.stuck
      | some (.host h) =>
        match popArgs h.arity s.stack with
        | none => s.stuck
        | some (args, stack) =>
          match hostArgs? args with
          | none => s.stuck
          | some args =>
            match s.store.host.call s.store.memory h args with
            | .ok (memory, host) =>
              .next { s with store := { s.store with memory, host }, stack }
            | .error e => .halt (.host e) s.store
      | some (.code type locals body) =>
        match fuel with
        | 0 => .halt .outOfFuel s.store
        | fuel + 1 =>
          match popArgs type.params.length s.stack with
          | none => s.stuck
          | some (args, below) =>
            match s with
            | ⟨store, own, _⟩ =>
              match runWith (runStep fuel) body
                  ⟨store, (args ++ locals.map Value.zero).toArray, []⟩ with
              | .next c | .ret c | .jump 0 c =>
                .next ⟨c.store, own, c.stack.take type.results.length ++ below⟩
              | .jump (_ + 1) c => .halt .stuck c.store
              | .halt h store => .halt h store
    | o => step o s
  | 0, _, s => .halt .outOfFuel s.store
  | fuel + 1, .block t body, s =>
    let (takes, gives) := blockArity p t
    let below := s.stack.drop takes
    match runWith (runStep fuel) body { s with stack := s.stack.take takes } with
    | .next c => .next (c.leave gives below)
    | .jump 0 c => .next (c.leave gives below)
    | .jump (l + 1) c => .jump l c
    | r => r
  | fuel + 1, .loop t body, s =>
    let (takes, gives) := blockArity p t
    let below := s.stack.drop takes
    match runWith (runStep fuel) body { s with stack := s.stack.take takes } with
    | .next c => .next (c.leave gives below)
    | .jump 0 c => runStep fuel (.loop t body) (c.leave takes below)
    | .jump (l + 1) c => .jump l c
    | r => r
  | fuel + 1, .branch t yes no, s =>
    match s.stack with
    | .i32 c :: stack =>
      let (takes, gives) := blockArity p t
      let below := stack.drop takes
      match runWith (runStep fuel) (if c = 0 then no else yes)
          { s with stack := stack.take takes } with
      | .next c => .next (c.leave gives below)
      | .jump 0 c => .next (c.leave gives below)
      | .jump (l + 1) c => .jump l c
      | r => r
    | _ => s.stuck

def run (fuel : Nat) (code : Code) (s : State) : Result := runWith (runStep p fuel) code s

/-- What a call from outside gives: results, or why there are none. -/
structure Return where
  outcome : Except Halt (List Value)
  store : Store

def invoke (fuel : Nat) (f : UInt32) (args : List Value) (store : Store) : Return :=
  match run p fuel [.op (.call f)] { store, locals := #[], stack := args.reverse } with
  | .next s => ⟨.ok s.stack.reverse, s.store⟩
  | .jump _ s | .ret s => ⟨.error .stuck, s.store⟩
  | .halt h store => ⟨.error h, store⟩

end

/-- Fuel for calls from outside: more than any run spends that ends within a lifetime. -/
def plentyOfFuel : Nat := Nat.pow 2 62

end MoveCodec.Machine
