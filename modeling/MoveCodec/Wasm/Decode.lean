import MoveCodec.Wasm.Module

/-!
# Reading the binary form

Reads modules back from the form that `Binary` writes: sections in their order, each at most once,
bodies of the instructions of `Instr`. A reader takes bytes from the front and gives what is left.
-/
namespace MoveCodec.Wasm

abbrev Reader (α : Type) := StateT Bytes Option α

namespace Reader

def byte : Reader UInt8 := fun
  | [] => none
  | b :: bs => some (b, bs)

def bytes (n : Nat) : Reader Bytes := fun bs =>
  if n ≤ bs.length then some (bs.take n, bs.drop n) else none

def exactly (b : UInt8) : Reader Unit := do
  if (← byte) = b then pure () else failure

def u32 : Reader UInt32 := Leb128.readU32?

def s32 : Reader Int32 := Leb128.readS32?

def s64 : Reader Int64 := Leb128.readS64?

def repeated {α : Type} (item : Reader α) : Nat → Reader (List α)
  | 0 => pure []
  | n + 1 => do
    let a ← item
    let rest ← repeated item n
    return a :: rest

def vec {α : Type} (item : Reader α) : Reader (List α) := do
  let n ← u32
  repeated item n.toNat

def sized : Reader Bytes := do
  let n ← u32
  bytes n.toNat

def name : Reader String := do
  let bs ← sized
  match String.fromUTF8? ⟨bs.toArray⟩ with
  | some s => pure s
  | none => failure

/-- Applies a reader to a whole byte string. -/
def all {α : Type} (item : Reader α) (bs : Bytes) : Option α :=
  match item bs with
  | some (a, []) => some a
  | _ => none

def valType : Reader ValType := ValType.mk <$> byte

def funcType : Reader FuncType := do
  exactly 0x60
  return ⟨← vec valType, ← vec valType⟩

def importEntry : Reader Import := do
  let home ← name
  let field ← name
  exactly 0
  return ⟨home, field, ← u32⟩

def limits : Reader Limits := do
  match ← byte with
  | 0 => return ⟨← u32, none⟩
  | 1 => return ⟨← u32, some (← u32)⟩
  | _ => failure

def const : Reader Const := do
  let c ← match ← byte with
    | 0x41 => do pure (Const.i32 (← s32).toUInt32)
    | 0x42 => do pure (Const.i64 (← s64).toUInt64)
    | _ => failure
  exactly 0x0b
  return c

def global : Reader Global := do
  let type ← valType
  let mutable ← match ← byte with
    | 0 => pure false
    | 1 => pure true
    | _ => failure
  return ⟨type, mutable, ← const⟩

def exportEntry : Reader Export := do
  let field ← name
  let kind ← byte
  return ⟨field, kind, ← u32⟩

def localRun : Reader LocalRun := do
  let count ← u32
  return ⟨count, ← valType⟩

def loadOp : LoadOp → Reader Op := fun op => do return .load op (← u32) (← u32)

def storeOp : StoreOp → Reader Op := fun op => do return .store op (← u32) (← u32)

def instrOf (opcode : UInt8) : Reader Instr :=
  match opcode with
  | 0x00 => return .op .unreachable
  | 0x01 => return .op .nop
  | 0x02 => return .block (← s32)
  | 0x03 => return .loop (← s32)
  | 0x04 => return .ifStart (← s32)
  | 0x05 => return .elseMark
  | 0x0b => return .endMark
  | 0x0c => return .op (.br (← u32))
  | 0x0d => return .op (.brIf (← u32))
  | 0x0e => return .op (.brTable (← vec u32) (← u32))
  | 0x0f => return .op .ret
  | 0x10 => return .op (.call (← u32))
  | 0x1a => return .op .drop
  | 0x1b => return .op .select
  | 0x20 => return .op (.localGet (← u32))
  | 0x21 => return .op (.localSet (← u32))
  | 0x22 => return .op (.localTee (← u32))
  | 0x23 => return .op (.globalGet (← u32))
  | 0x24 => return .op (.globalSet (← u32))
  | 0x28 => return .op (← loadOp .i32)
  | 0x29 => return .op (← loadOp .i64)
  | 0x2d => return .op (← loadOp .i32From8)
  | 0x2f => return .op (← loadOp .i32From16)
  | 0x31 => return .op (← loadOp .i64From8)
  | 0x35 => return .op (← loadOp .i64From32)
  | 0x36 => return .op (← storeOp .i32)
  | 0x37 => return .op (← storeOp .i64)
  | 0x3a => return .op (← storeOp .i32To8)
  | 0x3b => return .op (← storeOp .i32To16)
  | 0x3c => return .op (← storeOp .i64To8)
  | 0x3f => do
    exactly 0
    return .op .memorySize
  | 0x40 => do
    exactly 0
    return .op .memoryGrow
  | 0x41 => return .op (.i32Const (← s32).toUInt32)
  | 0x42 => return .op (.i64Const (← s64).toUInt64)
  | 0x45 => return .op .i32Eqz
  | 0x46 => return .op (.i32Rel .eq)
  | 0x47 => return .op (.i32Rel .ne)
  | 0x49 => return .op (.i32Rel .ltU)
  | 0x4b => return .op (.i32Rel .gtU)
  | 0x4d => return .op (.i32Rel .leU)
  | 0x4f => return .op (.i32Rel .geU)
  | 0x50 => return .op .i64Eqz
  | 0x51 => return .op (.i64Rel .eq)
  | 0x52 => return .op (.i64Rel .ne)
  | 0x54 => return .op (.i64Rel .ltU)
  | 0x56 => return .op (.i64Rel .gtU)
  | 0x6a => return .op (.i32Bin .add)
  | 0x6b => return .op (.i32Bin .sub)
  | 0x6c => return .op (.i32Bin .mul)
  | 0x6e => return .op (.i32Bin .divU)
  | 0x71 => return .op (.i32Bin .and)
  | 0x72 => return .op (.i32Bin .or)
  | 0x73 => return .op (.i32Bin .xor)
  | 0x74 => return .op (.i32Bin .shl)
  | 0x76 => return .op (.i32Bin .shrU)
  | 0x77 => return .op (.i32Bin .rotl)
  | 0x78 => return .op (.i32Bin .rotr)
  | 0x7c => return .op (.i64Bin .add)
  | 0x7d => return .op (.i64Bin .sub)
  | 0x83 => return .op (.i64Bin .and)
  | 0x84 => return .op (.i64Bin .or)
  | 0x86 => return .op (.i64Bin .shl)
  | 0x88 => return .op (.i64Bin .shrU)
  | 0x89 => return .op (.i64Bin .rotl)
  | 0xa7 => return .op .wrap
  | 0xad => return .op .extend
  | 0xfc => do
    match ← u32 with
    | 0x0a => do
      exactly 0
      exactly 0
      return .op .memoryCopy
    | 0x0b => do
      exactly 0
      return .op .memoryFill
    | _ => failure
  | _ => failure

def instr : Reader Instr := do instrOf (← byte)

/-- Reads instructions to the end of a byte string. Each takes at least one byte, so `fuel` of the
length is enough. -/
def instrsFrom : (fuel : Nat) → Bytes → Option (List Instr)
  | _, [] => some []
  | 0, _ :: _ => none
  | fuel + 1, b :: bs => do
    let (i, rest) ← instrOf b bs
    let is ← instrsFrom fuel rest
    return i :: is

def func : Reader (Func (List Instr)) := do
  let bs ← sized
  match vec localRun bs with
  | some (locals, body) =>
    match instrsFrom body.length body with
    | some is => pure ⟨locals, is⟩
    | none => failure
  | none => failure

def data : Reader Data := do
  exactly 0
  match ← const with
  | .i32 offset => return ⟨offset, ← sized⟩
  | .i64 _ => failure

/-- Reads a section behind its number, if it comes next. -/
def sectionOf (id : UInt8) : Reader (Option Bytes) := fun
  | b :: bs =>
    if b = id then (sized bs).map fun (content, rest) => (some content, rest)
    else some (none, b :: bs)
  | [] => some (none, [])

/-- Reads a section of a list of entries; none when it is left out. -/
def entries {α : Type} (id : UInt8) (item : Reader α) : Reader (List α) := do
  match ← sectionOf id with
  | none => return []
  | some content =>
    match all (vec item) content with
    | some xs => return xs
    | none => failure

def names : Reader Names := do
  let home ← match ← sectionOf 0 with
    | none => pure ""
    | some content =>
      match all name content with
      | some s => pure s
      | none => failure
  let functions ← entries 1 do
    let i ← u32
    return (i, ← name)
  return ⟨home, functions⟩

/-- Reads custom sections to the end of a byte string. -/
def customsFrom : (fuel : Nat) → Bytes → Option (List Custom)
  | _, [] => some []
  | 0, _ :: _ => none
  | fuel + 1, bs => do
    let (content, rest) ← sectionOf 0 bs
    let (field, bytes) ← name (← content)
    let cs ← customsFrom fuel rest
    return ⟨field, bytes⟩ :: cs

def splitNames : List Custom → Option (Option Names × List Custom)
  | c :: cs =>
    if c.name = "name" then (all names c.bytes).map fun n => (some n, cs)
    else some (none, c :: cs)
  | [] => some (none, [])

/-- A module behind its header. -/
def body : Reader (Module (List Instr)) := do
  let types ← entries 1 funcType
  let imports ← entries 2 importEntry
  let funcs ← entries 3 u32
  let memories ← entries 5 limits
  let globals ← entries 6 global
  let exports ← entries 7 exportEntry
  let code ← entries 10 func
  let data ← entries 11 data
  let rest ← getModify fun _ => []
  match (customsFrom rest.length rest).bind splitNames with
  | some (names, customs) =>
    return { types, imports, funcs, memories, globals, exports, code, data, names, customs }
  | none => failure

end Reader

inductive DecodeFault where
  | magic
  | version
  | content
  deriving DecidableEq, Repr

def DecodeFault.message : DecodeFault → String
  | .magic => "invalid magic number"
  | .version => "invalid version header"
  | .content => "malformed section"

def Module.decode (bs : Bytes) : Except DecodeFault (Module (List Instr)) :=
  if bs.take 4 ≠ Binary.header.take 4 then .error .magic
  else if (bs.drop 4).take 4 ≠ Binary.header.drop 4 then .error .version
  else match Reader.body (bs.drop 8) with
    | some (m, _) => .ok m
    | none => .error .content

end MoveCodec.Wasm
