import MoveCodec.Machine.Exec

/-!
# Instances

A module that was accepted by the engine, linked to a host and given its memory. Calls from
outside name an export. What a call changed before it failed stays, so operations on an instance
are computations that keep their state on failure.
-/
namespace MoveCodec.Machine

open Wasm

/-- What surrounds a module: the name under which host functions are found, and a bound on memory
in pages, 0 for none. -/
structure Engine where
  host : String := "vm_hooks"
  limit : UInt32 := 0

def maxPages : Nat := 65536

def Engine.pageLimit (e : Engine) : Nat := if e.limit = 0 then maxPages else e.limit.toNat

structure Instance where
  program : Program
  exports : List Export
  store : Store

/-- The refusal of a module that the engine cannot compile. -/
def compileFault (text : String) : Error :=
  .wrapped { phase := some .host, kind := some .invalidInput, detail := "compile guest module" }
    (.outside (.engine text))

/-- The refusal of a module that cannot be linked. -/
def linkFault (text : String) : Error :=
  .wrapped { phase := some .host, kind := some .instantiation,
             detail := "instantiate guest module" } (.outside (.engine text))

/-- A number of pages in the largest binary unit that leaves at least one, in 32-bit arithmetic. -/
def pagesText (pages : Nat) : String :=
  let k := pages * 64 % UInt32.size
  if k < 1024 then toString k ++ " Ki"
  else if k / 1024 < 1024 then toString (k / 1024) ++ " Mi"
  else if k / 1024 / 1024 < 1024 then toString (k / 1024 / 1024) ++ " Gi"
  else toString (k / 1024 / 1024 / 1024) ++ " Ti"

def pagesShown (pages : Nat) : String := toString pages ++ " pages (" ++ pagesText pages ++ ")"

def memoryOf (e : Engine) : List Limits → Except Error Memory
  | [] => .ok (Memory.zeros 0 0)
  | [l] =>
    let min := l.min.toNat
    let max := match l.max with
      | none => e.pageLimit
      | some m => if m.toNat ≤ maxPages then Nat.min m.toNat e.pageLimit else m.toNat
    if e.pageLimit < max then
      .error (compileFault ("section memory: max " ++ pagesShown max ++ " over limit of " ++
        pagesShown e.pageLimit))
    else if e.pageLimit < min then
      .error (compileFault ("section memory: min " ++ pagesShown min ++ " over limit of " ++
        pagesShown e.pageLimit))
    else if max < min then
      .error (compileFault ("section memory: min " ++ pagesShown min ++ " > max " ++
        pagesShown max))
    else .ok (Memory.zeros min max)
  | ls => .error (compileFault ("section memory: at most one memory allowed in module, but read " ++
      toString ls.length))

def checkExportNames (i : Nat) (seen : List String) : List Export → Except Error Unit
  | [] => .ok ()
  | x :: rest =>
    if seen.contains x.name then
      .error (compileFault ("section export: export[" ++ toString i ++ "] duplicates name " ++
        Text.quote x.name))
    else checkExportNames (i + 1) (x.name :: seen) rest

def checkExports (m : Module (List Instr)) : Except Error Unit :=
  m.exports.zipIdx.forM fun (x, i) =>
    let known :=
      if x.kind = exportFunc then decide (x.index.toNat < m.imports.length + m.funcs.length)
      else if x.kind = exportMemory then decide (x.index.toNat < m.memories.length)
      else if x.kind = exportGlobal then decide (x.index.toNat < m.globals.length)
      else true
    if known then .ok ()
    else .error (compileFault ("unknown index for export[" ++ toString i ++ "]"))

def resolveImport (e : Engine) (m : Module (List Instr)) (i : Import) : Except Error Callee :=
  if i.home ≠ e.host then .error (linkFault ("module[" ++ i.home ++ "] not instantiated"))
  else match HostFunc.ofName? i.name with
    | none => .error (linkFault (Text.quote i.name ++ " is not exported in module " ++
        Text.quote i.home))
    | some f =>
      if m.types[i.type.toNat]? = some ⟨List.replicate f.arity .i32, []⟩ then .ok (.host f)
      else .error (linkFault ("import func[" ++ i.home ++ "." ++ i.name ++
        "]: signature mismatch"))

/-- A function of a module with its blocks as a tree. -/
def resolveBody (m : Module (List Instr)) (type : UInt32) (f : Func (List Instr)) :
    Except Error Callee :=
  match m.types[type.toNat]?, Code.nest? f.body with
  | some t, some body =>
    .ok (.code t (f.locals.flatMap fun l => List.replicate l.count.toNat l.type) body)
  | _, _ => .error (compileFault "invalid function")

def placeData (i : Nat) (mem : Memory) : List Data → Except Error Memory
  | [] => .ok mem
  | d :: rest =>
    match mem.write? d.offset.toNat d.bytes with
    | some mem => placeData (i + 1) mem rest
    | none =>
      .error (linkFault ("data[" ++ toString i ++ "]: out of bounds memory access"))

def instantiate (e : Engine) (host : Host) (m : Module (List Instr)) : Except Error Instance := do
  let memory ← memoryOf e m.memories
  checkExportNames 0 [] m.exports
  checkExports m
  let funcs ← (m.funcs.zip m.code).mapM fun (t, f) => resolveBody m t f
  let imports ← m.imports.mapM (resolveImport e m)
  let memory ← placeData 0 memory m.data
  return {
    program := ⟨m.types.toArray, (imports ++ funcs).toArray⟩
    exports := m.exports
    store := ⟨memory, (m.globals.map fun g => Value.ofConst g.init).toArray, host⟩ }

abbrev Session := EStateM Error Instance

namespace Instance

def func? (i : Instance) (name : String) : Option UInt32 :=
  (i.exports.find? fun e => e.name == name && e.kind == exportFunc).map (·.index)

def isExported (i : Instance) (name : String) : Bool := (i.func? name).isSome

def typeOf? (i : Instance) (f : UInt32) : Option FuncType :=
  match i.program.funcs[f.toNat]? with
  | some (.code t _ _) => some t
  | some (.host h) => some ⟨List.replicate h.arity .i32, []⟩
  | none => none

end Instance

def Halt.error : Halt → Error
  | .trap t => .outside (.trap t)
  | .host e => e
  | .stuck => .outside (.engine "invalid code")
  | .outOfFuel => .outside (.engine "out of fuel")

namespace Session

def memory : Session Memory := do return (← get).store.memory

def setHost (change : Host → Host) : Session Unit :=
  modify fun i => { i with store := { i.store with host := change i.store.host } }

/-- Calls an exported function with the low bits of numbers as arguments. -/
def call (name : String) (args : List Nat) : Session (List Value) := do
  let i ← get
  match i.func? name with
  | none => throw (.notFound .host "export" name)
  | some f =>
    let params := ((i.typeOf? f).map (·.params)).getD []
    if params.length ≠ args.length then
      throw (.outside (.engine ("expected " ++ toString params.length ++ " params, but passed " ++
        toString args.length)))
    let r := invoke i.program plentyOfFuel f ((params.zip args).map fun (t, n) => Value.ofNat t n)
      i.store
    set { i with store := r.store }
    match r.outcome with
    | .ok vs => return vs
    | .error h => throw h.error

/-- Calls a function with a single result and gives its low 32 bits. -/
def callWord (name : String) (args : List Nat) : Session UInt32 := do
  match ← call name args with
  | [v] => return UInt32.ofNat v.toNat
  | vs =>
    throw (.invalidInput .host "" (name ++ " returned " ++ toString vs.length ++ " values"))

def read (ptr n : UInt32) : Session Bytes := do
  match Host.read (← memory) ptr n.toNat with
  | .ok bs => return bs
  | .error e => throw e

def readU32 (ptr : UInt32) : Session UInt32 := do
  return UInt32.ofNat (Bytes.toNatLE (← read ptr 4))

def readU64 (ptr : UInt32) : Session UInt64 := do
  return UInt64.ofNat (Bytes.toNatLE (← read ptr 8))

def write (ptr : UInt32) (bs : Bytes) : Session Unit := do
  match Host.write (← memory) ptr bs with
  | .ok memory => modify fun i => { i with store := { i.store with memory } }
  | .error e => throw e

def alloc (n : UInt32) : Session UInt32 := callWord "allocate" [n.toNat]

def place (bs : Bytes) : Session UInt32 := do
  let ptr ← alloc (UInt32.ofNat bs.length)
  write ptr bs
  return ptr

def readSized (ptr : UInt32) : Session Bytes := do
  let n ← readU32 ptr
  read (ptr + 4) n

/-- Runs an entry point on call data and gives what it handed to the host. -/
def enter (entry : String) (calldata : Bytes) : Session Bytes := do
  setHost fun h => { h with calldata, result := [] }
  let status ← callWord entry [calldata.length]
  if status ≠ 0 then
    throw (.invalidInput .host "" (entry ++ " returned status " ++ toString status.toNat))
  return (← get).store.host.result

end Session

end MoveCodec.Machine
