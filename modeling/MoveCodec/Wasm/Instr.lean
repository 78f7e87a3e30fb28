import MoveCodec.Bytes

/-!
# Instructions

The instructions of function bodies. `Op` has those that stand alone; `Instr` adds the marks that
open, divide and close blocks, so a body is a list of `Instr`. `Raw` is what an instruction looks
like in a module: an opcode and an immediate of any kind.
-/
namespace MoveCodec.Wasm

/-- Value types by their code. -/
structure ValType where
  code : UInt8
  deriving DecidableEq, Repr

namespace ValType

@[match_pattern] abbrev i32 : ValType := ⟨0x7f⟩
@[match_pattern] abbrev i64 : ValType := ⟨0x7e⟩

def name : ValType → String
  | .i32 => "i32"
  | .i64 => "i64"
  | _ => "unknown"

end ValType

structure FuncType where
  params : List ValType
  results : List ValType
  deriving DecidableEq, Repr

/-- Block types by their signed code: void, one result, or the index of a function type. -/
abbrev BlockType := Int32

def BlockType.void : BlockType := -64

inductive LoadOp where
  | i32
  | i64
  | i32From8
  | i32From16
  | i64From8
  | i64From32
  deriving DecidableEq, Repr

inductive StoreOp where
  | i32
  | i64
  | i32To8
  | i32To16
  | i64To8
  deriving DecidableEq, Repr

inductive I32Op where
  | add
  | sub
  | mul
  | divU
  | and
  | or
  | xor
  | shl
  | shrU
  | rotl
  | rotr
  deriving DecidableEq, Repr

inductive I32Rel where
  | eq
  | ne
  | ltU
  | gtU
  | leU
  | geU
  deriving DecidableEq, Repr

inductive I64Op where
  | add
  | sub
  | and
  | or
  | shl
  | shrU
  | rotl
  deriving DecidableEq, Repr

inductive I64Rel where
  | eq
  | ne
  | ltU
  | gtU
  deriving DecidableEq, Repr

/-- Instructions that stand alone. Constants are bit patterns. -/
inductive Op where
  | unreachable
  | nop
  | br (label : UInt32)
  | brIf (label : UInt32)
  | brTable (labels : List UInt32) (default : UInt32)
  | ret
  | call (f : UInt32)
  | drop
  | select
  | localGet (x : UInt32)
  | localSet (x : UInt32)
  | localTee (x : UInt32)
  | globalGet (x : UInt32)
  | globalSet (x : UInt32)
  | load (op : LoadOp) (align offset : UInt32)
  | store (op : StoreOp) (align offset : UInt32)
  | memorySize
  | memoryGrow
  | memoryCopy
  | memoryFill
  | i32Const (v : UInt32)
  | i64Const (v : UInt64)
  | i32Eqz
  | i32Rel (r : I32Rel)
  | i32Bin (o : I32Op)
  | i64Eqz
  | i64Rel (r : I64Rel)
  | i64Bin (o : I64Op)
  | wrap
  | extend
  deriving DecidableEq, Repr

inductive Instr where
  | op (o : Op)
  | block (t : BlockType)
  | loop (t : BlockType)
  | ifStart (t : BlockType)
  | elseMark
  | endMark
  deriving DecidableEq, Repr

inductive Immediate where
  | none
  | block (t : BlockType)
  | branch (label : UInt32)
  | table (labels : List UInt32) (default : UInt32)
  | call (f : UInt32)
  | variable (x : UInt32)
  | memory (align offset : UInt32)
  | i32 (v : UInt32)
  | i64 (v : UInt64)
  | misc (sub : UInt32) (operands : List UInt32)
  deriving DecidableEq, Repr

/-- An opcode with an immediate, whether or not they belong together. -/
structure Raw where
  opcode : UInt8
  imm : Immediate := .none
  deriving DecidableEq, Repr

def LoadOp.opcode : LoadOp → UInt8
  | .i32 => 0x28
  | .i64 => 0x29
  | .i32From8 => 0x2d
  | .i32From16 => 0x2f
  | .i64From8 => 0x31
  | .i64From32 => 0x35

def StoreOp.opcode : StoreOp → UInt8
  | .i32 => 0x36
  | .i64 => 0x37
  | .i32To8 => 0x3a
  | .i32To16 => 0x3b
  | .i64To8 => 0x3c

def I32Rel.opcode : I32Rel → UInt8
  | .eq => 0x46
  | .ne => 0x47
  | .ltU => 0x49
  | .gtU => 0x4b
  | .leU => 0x4d
  | .geU => 0x4f

def I32Op.opcode : I32Op → UInt8
  | .add => 0x6a
  | .sub => 0x6b
  | .mul => 0x6c
  | .divU => 0x6e
  | .and => 0x71
  | .or => 0x72
  | .xor => 0x73
  | .shl => 0x74
  | .shrU => 0x76
  | .rotl => 0x77
  | .rotr => 0x78

def I64Rel.opcode : I64Rel → UInt8
  | .eq => 0x51
  | .ne => 0x52
  | .ltU => 0x54
  | .gtU => 0x56

def I64Op.opcode : I64Op → UInt8
  | .add => 0x7c
  | .sub => 0x7d
  | .and => 0x83
  | .or => 0x84
  | .shl => 0x86
  | .shrU => 0x88
  | .rotl => 0x89

def Op.raw : Op → Raw
  | .unreachable => ⟨0x00, .none⟩
  | .nop => ⟨0x01, .none⟩
  | .br l => ⟨0x0c, .branch l⟩
  | .brIf l => ⟨0x0d, .branch l⟩
  | .brTable ls d => ⟨0x0e, .table ls d⟩
  | .ret => ⟨0x0f, .none⟩
  | .call f => ⟨0x10, .call f⟩
  | .drop => ⟨0x1a, .none⟩
  | .select => ⟨0x1b, .none⟩
  | .localGet x => ⟨0x20, .variable x⟩
  | .localSet x => ⟨0x21, .variable x⟩
  | .localTee x => ⟨0x22, .variable x⟩
  | .globalGet x => ⟨0x23, .variable x⟩
  | .globalSet x => ⟨0x24, .variable x⟩
  | .load op align offset => ⟨op.opcode, .memory align offset⟩
  | .store op align offset => ⟨op.opcode, .memory align offset⟩
  | .memorySize => ⟨0x3f, .none⟩
  | .memoryGrow => ⟨0x40, .none⟩
  | .memoryCopy => ⟨0xfc, .misc 0x0a [0, 0]⟩
  | .memoryFill => ⟨0xfc, .misc 0x0b [0]⟩
  | .i32Const v => ⟨0x41, .i32 v⟩
  | .i64Const v => ⟨0x42, .i64 v⟩
  | .i32Eqz => ⟨0x45, .none⟩
  | .i32Rel r => ⟨r.opcode, .none⟩
  | .i32Bin o => ⟨o.opcode, .none⟩
  | .i64Eqz => ⟨0x50, .none⟩
  | .i64Rel r => ⟨r.opcode, .none⟩
  | .i64Bin o => ⟨o.opcode, .none⟩
  | .wrap => ⟨0xa7, .none⟩
  | .extend => ⟨0xad, .none⟩

def Instr.raw : Instr → Raw
  | .op o => o.raw
  | .block t => ⟨0x02, .block t⟩
  | .loop t => ⟨0x03, .block t⟩
  | .ifStart t => ⟨0x04, .block t⟩
  | .elseMark => ⟨0x05, .none⟩
  | .endMark => ⟨0x0b, .none⟩

def Raw.callTarget? : Raw → Option UInt32
  | ⟨0x10, .call f⟩ => some f
  | _ => none

end MoveCodec.Wasm
