import MoveCodec.Format.Leb128
import MoveCodec.Wasm.Instr

/-!
# Modules and their binary form

A module in the order of its sections. Bodies are either instructions or bytes that are taken as
they are, so `Module` has the type of bodies as a parameter. Sections without entries are left
out; names and custom sections come last.
-/
namespace MoveCodec.Wasm

structure Import where
  home : String
  name : String
  type : UInt32
  deriving DecidableEq, Repr

structure Limits where
  min : UInt32
  max : Option UInt32 := none
  deriving DecidableEq, Repr

inductive Const where
  | i32 (v : UInt32)
  | i64 (v : UInt64)
  deriving DecidableEq, Repr

structure Global where
  type : ValType
  mutable : Bool
  init : Const
  deriving DecidableEq, Repr

def exportFunc : UInt8 := 0
def exportMemory : UInt8 := 2
def exportGlobal : UInt8 := 3

structure Export where
  name : String
  kind : UInt8
  index : UInt32
  deriving DecidableEq, Repr

structure LocalRun where
  count : UInt32
  type : ValType
  deriving DecidableEq, Repr

structure Func (Body : Type) where
  locals : List LocalRun
  body : Body
  deriving DecidableEq, Repr

structure Data where
  offset : UInt32
  bytes : Bytes
  deriving DecidableEq, Repr

/-- Names for readers of a module: of the module and of functions by index. -/
structure Names where
  home : String
  functions : List (UInt32 × String)
  deriving DecidableEq, Repr

structure Custom where
  name : String
  bytes : Bytes
  deriving DecidableEq, Repr

structure Module (Body : Type) where
  types : List FuncType := []
  imports : List Import := []
  funcs : List UInt32 := []
  memories : List Limits := []
  globals : List Global := []
  exports : List Export := []
  code : List (Func Body) := []
  data : List Data := []
  names : Option Names := none
  customs : List Custom := []
  deriving DecidableEq, Repr

namespace Module

variable {Body : Type}

def addType (types : List FuncType) (t : FuncType) : UInt32 × List FuncType :=
  match types.findIdx? (· == t) with
  | some i => (UInt32.ofNat i, types)
  | none => (UInt32.ofNat types.length, types ++ [t])

/-- The type of a function by its index, imports first. -/
def typeOf? (m : Module Body) (f : UInt32) : Option FuncType := do
  let i ← (m.imports.map (·.type) ++ m.funcs)[f.toNat]?
  m.types[i.toNat]?

end Module

/-! ## Binary form -/

namespace Binary

/-- A list with its length in front. -/
def vec {α : Type} (item : α → Bytes) (xs : List α) : Bytes :=
  Leb128.count xs.length ++ xs.flatMap item

/-- Bytes with their length in front. -/
def sized (bs : Bytes) : Bytes := Leb128.count bs.length ++ bs

def name (s : String) : Bytes := sized (Bytes.ofText s)

def sectionOf (id : UInt8) (bs : Bytes) : Bytes := id :: sized bs

/-- A section of a list of entries; nothing when there are none. -/
def entries {α : Type} (id : UInt8) (item : α → Bytes) (xs : List α) : Bytes :=
  if xs.isEmpty then [] else sectionOf id (vec item xs)

def immediate (opcode : UInt8) : Immediate → Bytes
  | .none => if opcode = 0x3f ∨ opcode = 0x40 then [0] else []
  | .block t => Leb128.s32 t
  | .branch l => Leb128.u32 l
  | .table ls d => vec Leb128.u32 ls ++ Leb128.u32 d
  | .call f => Leb128.u32 f
  | .variable x => Leb128.u32 x
  | .memory align offset => Leb128.u32 align ++ Leb128.u32 offset
  | .i32 v => Leb128.s32 v.toInt32
  | .i64 v => Leb128.s64 v.toInt64
  | .misc sub operands => Leb128.u32 sub ++ operands.flatMap Leb128.u32

def raw (i : Raw) : Bytes := i.opcode :: immediate i.opcode i.imm

def instr (i : Instr) : Bytes := raw i.raw

def body (is : List Instr) : Bytes := is.flatMap instr

def const : Const → Bytes
  | .i32 v => raw ⟨0x41, .i32 v⟩ ++ [0x0b]
  | .i64 v => raw ⟨0x42, .i64 v⟩ ++ [0x0b]

def valTypes (ts : List ValType) : Bytes := vec (fun t => [t.code]) ts

def funcType (t : FuncType) : Bytes := 0x60 :: valTypes t.params ++ valTypes t.results

def importEntry (i : Import) : Bytes := name i.home ++ name i.name ++ [0] ++ Leb128.u32 i.type

def limits : Limits → Bytes
  | ⟨min, none⟩ => 0 :: Leb128.u32 min
  | ⟨min, some max⟩ => 1 :: Leb128.u32 min ++ Leb128.u32 max

def global (g : Global) : Bytes := g.type.code :: (if g.mutable then 1 else 0) :: const g.init

def exportEntry (e : Export) : Bytes := name e.name ++ [e.kind] ++ Leb128.u32 e.index

def localRun (l : LocalRun) : Bytes := Leb128.u32 l.count ++ [l.type.code]

def func (f : Func Bytes) : Bytes := sized (vec localRun f.locals ++ f.body)

def data (d : Data) : Bytes := Leb128.u32 0 ++ const (.i32 d.offset) ++ sized d.bytes

/-- The names in two parts, either of which is left out when it is empty. Functions stand in the
order of their indices. -/
def names (n : Names) : Bytes :=
  let functions := n.functions.mergeSort fun a b => a.1 ≤ b.1
  name "name" ++ (if n.home = "" then [] else sectionOf 0 (name n.home)) ++
    (if functions.isEmpty then []
     else sectionOf 1 (vec (fun (i, s) => Leb128.u32 i ++ name s) functions))

def custom (c : Custom) : Bytes := sectionOf 0 (name c.name ++ c.bytes)

/-- The mark and the version a module starts with. -/
def header : Bytes := [0x00, 0x61, 0x73, 0x6d, 0x01, 0x00, 0x00, 0x00]

def module (m : Module Bytes) : Bytes :=
  header ++ entries 1 funcType m.types ++ entries 2 importEntry m.imports ++
    entries 3 Leb128.u32 m.funcs ++ entries 5 limits m.memories ++ entries 6 global m.globals ++
    entries 7 exportEntry m.exports ++ entries 10 func m.code ++ entries 11 data m.data ++
    (match m.names with
      | some n => sectionOf 0 (names n)
      | none => []) ++
    m.customs.flatMap custom

end Binary

namespace Module

def assemble (m : Module (List Instr)) : Module Bytes :=
  { m with code := m.code.map fun f => { f with body := Binary.body f.body } }

def encode (m : Module (List Instr)) : Bytes := Binary.module m.assemble

end Module

end MoveCodec.Wasm
