import MoveCodec.Error
import MoveCodec.Wasm.Code
import MoveCodec.Wasm.Module

/-!
# Module drafts

A draft is a module under construction. Its functions have logical numbers, imports and definitions
together, in the order in which they were declared. `Draft.link` gives the imports the low indices
and renumbers calls and exports. A definition claims its name at once and can be completed later;
a draft with an incomplete function does not link.
-/
namespace MoveCodec.Assembly

open Wasm

abbrev FuncId := UInt32

inductive Entry where
  | imported (home name : String) (type : FuncType)
  | defined (name : String) (type : FuncType) (locals : List ValType) (body : List Instr)
      (finished : Bool)

namespace Entry

def name : Entry → String
  | .imported home name _ => home ++ "." ++ name
  | .defined name .. => name

def type : Entry → FuncType
  | .imported _ _ t => t
  | .defined _ t .. => t

def isImport : Entry → Bool
  | .imported .. => true
  | .defined .. => false

/-- The body so far; an import has none. -/
def body : Entry → List Instr
  | .imported .. => []
  | .defined _ _ _ body _ => body

def addLocal (t : ValType) : Entry → Option (UInt32 × Entry)
  | .imported .. => none
  | .defined name type locals body finished =>
    some (UInt32.ofNat (type.params.length + locals.length),
      .defined name type (locals ++ [t]) body finished)

def emit (is : List Instr) : Entry → Entry
  | .defined name type locals body finished => .defined name type locals (body ++ is) finished
  | e => e

/-- Closes the body; a second time changes nothing. -/
def finish : Entry → Entry
  | .defined name type locals body false => .defined name type locals (body ++ [.endMark]) true
  | e => e

/-- Gives a function its locals and its whole body. -/
def complete (locals : List ValType) (code : Code) : Entry → Entry
  | .defined name type _ _ _ => .defined name type locals (Code.flatten code ++ [.endMark]) true
  | e => e

end Entry

structure Draft where
  name : String
  funcs : List Entry := []
  globals : List Global := []
  memory : Option Limits := none
  /-- Exports; those of functions have logical numbers. -/
  exports : List Export := []
  data : List Data := []

namespace Draft

def nextId (d : Draft) : FuncId := UInt32.ofNat d.funcs.length

/-- Declares an import; the same one twice is the first. -/
def declareImport (d : Draft) (home name : String) (type : FuncType) : FuncId × Draft :=
  let same : Entry → Bool
    | .imported h n _ => h == home && n == name
    | .defined .. => false
  match d.funcs.findIdx? same with
  | some i => (UInt32.ofNat i, d)
  | none => (d.nextId, { d with funcs := d.funcs ++ [.imported home name type] })

def definition? (d : Draft) (name : String) : Option FuncId :=
  (d.funcs.findIdx? fun e => !e.isImport && e.name == name).map UInt32.ofNat

def claim (d : Draft) (name : String) (type : FuncType) : Except Error (FuncId × Draft) :=
  if (d.definition? name).isSome then
    .error (.duplicate .codegen "" ("function " ++ Text.quote name ++ " already defined"))
  else .ok (d.nextId, { d with funcs := d.funcs ++ [.defined name type [] [] false] })

def modify (d : Draft) (f : FuncId) (change : Entry → Entry) : Draft :=
  { d with funcs := d.funcs.modify f.toNat change }

/-- The name of a function; empty for a number that is not in use. -/
def nameOf (d : Draft) (f : FuncId) : String :=
  ((d.funcs[f.toNat]?).map Entry.name).getD ""

def type? (d : Draft) (f : FuncId) : Option FuncType := (d.funcs[f.toNat]?).map Entry.type

/-- The number of the local that holds a parameter. -/
def param (d : Draft) (f : FuncId) (i : Int) : Except String UInt32 :=
  let arity := ((d.type? f).map (·.params.length)).getD 0
  if 0 ≤ i ∧ i < arity then .ok (UInt32.ofNat i.toNat)
  else .error ("codegen: " ++ d.nameOf f ++ " has no parameter " ++ toString i)

def count (d : Draft) : Nat := (d.funcs.filter fun e => !e.isImport).length

def addGlobal (d : Draft) (g : Global) : UInt32 × Draft :=
  (UInt32.ofNat d.globals.length, { d with globals := d.globals ++ [g] })

def addData (d : Draft) (offset : UInt32) (bytes : Bytes) : Draft :=
  { d with data := d.data ++ [⟨offset, bytes⟩] }

def addExport (d : Draft) (name : String) (kind : UInt8) (index : UInt32) : Draft :=
  { d with exports := d.exports ++ [⟨name, kind, index⟩] }

def exportFunc (d : Draft) (name : String) (f : FuncId) : Draft :=
  d.addExport name Wasm.exportFunc f

def isExported (d : Draft) (name : String) : Bool := d.exports.any (·.name == name)

/-! ## Linking -/

/-- Refuses a draft whose functions or locals cannot be numbered. Numbers have 32 bits; those of
locals come after those of parameters. -/
def checkNumbers (d : Draft) : Except Error Unit :=
  let numbered : Entry → Bool
    | .imported .. => true
    | .defined _ t locals .. =>
      locals.length < UInt32.size && t.params.length + locals.length ≤ UInt32.size
  if UInt32.size < d.funcs.length then .error (overflow "function space overflow")
  else if !d.funcs.all numbered then .error (overflow "local space overflow")
  else .ok ()
where
  overflow (detail : String) : Error :=
    .report { phase := some .codegen, kind := some .overflow, detail }

/-- Final indices by logical number: imports first, each kind in order. -/
def indices (funcs : List Entry) : List UInt32 :=
  let imports := (funcs.filter Entry.isImport).length
  let rec go (nextImport nextDefined : Nat) : List Entry → List UInt32
    | [] => []
    | e :: rest =>
      if e.isImport then UInt32.ofNat nextImport :: go (nextImport + 1) nextDefined rest
      else UInt32.ofNat nextDefined :: go nextImport (nextDefined + 1) rest
  go 0 imports funcs

/-- Equal neighbours counted together. -/
def localRuns : List ValType → List LocalRun
  | [] => []
  | t :: rest =>
    match localRuns rest with
    | ⟨n, u⟩ :: runs => if t = u then ⟨n + 1, u⟩ :: runs else ⟨1, t⟩ :: ⟨n, u⟩ :: runs
    | [] => [⟨1, t⟩]

def relocate (index : List UInt32) (owner : String) (body : List Instr) :
    Except Error (List Instr) :=
  body.mapM fun
    | .op (.call f) =>
      match index[f.toNat]? with
      | some i => .ok (.op (.call i))
      | none => .error (.report
          { phase := some .codegen, kind := some .notFound, path := [owner],
            detail := "call to unknown function " ++ toString f.toNat })
    | i => .ok i

def linkImports (types : List FuncType) : List Entry → List FuncType × List Import
  | [] => (types, [])
  | .imported home name t :: rest =>
    let (i, types) := Module.addType types t
    let (types, imports) := linkImports types rest
    (types, ⟨home, name, i⟩ :: imports)
  | .defined .. :: rest => linkImports types rest

def linkFuncs (index : List UInt32) (types : List FuncType) :
    List Entry → Except Error (List FuncType × List UInt32 × List (Func (List Instr)))
  | [] => .ok (types, [], [])
  | .imported .. :: rest => linkFuncs index types rest
  | .defined name t locals body finished :: rest => do
    if !finished then
      throw (.internal .codegen ("function " ++ Text.quote name ++ " was never finished"))
    let body ← relocate index name body
    let (i, types) := Module.addType types t
    let (types, funcs, code) ← linkFuncs index types rest
    return (types, i :: funcs, ⟨localRuns locals, body⟩ :: code)

def linkExport (index : List UInt32) (e : Export) : Except Error Export :=
  if e.kind = Wasm.exportFunc then
    match index[e.index.toNat]? with
    | some i => .ok { e with index := i }
    | none => .error (.internal .codegen
        ("export " ++ Text.quote e.name ++ " refers to unknown function " ++
          toString e.index.toNat))
  else .ok e

def linkNames (index : List UInt32) (funcs : List Entry) : List (UInt32 × String) :=
  (index.zip funcs).filterMap fun (i, e) => if e.isImport then none else some (i, e.name)

def link (d : Draft) : Except Error (Module (List Instr)) := do
  let index := indices d.funcs
  let (types, imports) := linkImports [] d.funcs
  let (types, funcs, code) ← linkFuncs index types d.funcs
  let exports ← d.exports.mapM (linkExport index)
  return {
    types, imports, funcs, code, exports
    memories := d.memory.toList
    globals := d.globals
    data := d.data
    names := some ⟨d.name, linkNames index d.funcs⟩ }

def encode (d : Draft) : Except Error Bytes := Module.encode <$> d.link

end Draft

end MoveCodec.Assembly
