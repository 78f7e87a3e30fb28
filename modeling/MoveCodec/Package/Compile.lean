import MoveCodec.Codec.Payload
import MoveCodec.Package.Interface

/-!
# Compilation

The module of a package exports a decoder and an encoder for every function, the payloads of errors
and events, and storage access for every object that is not generic. Re-encoders of decoded
arguments are made on demand.
-/
namespace MoveCodec

structure CompileOptions where
  options : Options := {}
  storage : Bool := false
  echo : Bool := false

structure Artifact where
  module : Wasm.Module (List Wasm.Instr)
  entries : List Interface.Entry
  /-- The exported functions in the order in which they were made. -/
  exports : List String
  instantiations : Nat

def Artifact.wasm (a : Artifact) : Bytes := a.module.encode

namespace Export

/-! Names of the exports. -/

def decode (function : String) : String := "abi_decode_" ++ function
def encode (function : String) : String := "abi_encode_" ++ function
def echo (function : String) : String := "abi_echo_" ++ function
def revert (error : String) : String := "abi_revert_" ++ error
def raise (error : String) : String := "abi_raise_" ++ error
def emit (event : String) : String := "abi_emit_" ++ event
def save (object : String) : String := "storage_save_" ++ object
def load (object : String) : String := "storage_load_" ++ object
def read (object : String) : String := "storage_read_" ++ object
def delete (object : String) : String := "storage_delete_" ++ object

def add (name : String) (gen : Generate Assembly.FuncId) : Generate Unit := do
  let f ← Codec.under name gen
  if (← get).draft.isExported name then
    throw (.duplicate .codegen "" ("export " ++ Text.quote name ++ " is generated twice"))
  Assembly.editDraft (·.exportFunc name f)

end Export

namespace Package

variable (p : Package)

/-- Every parameter is read by value from the call data. -/
def hasEcho (params : List MoveType) : Bool :=
  params.all fun q =>
    match q.deref with
    | .error _ => false
    | .ok t =>
      !p.registry.isInjected t &&
        match t with
        | .struct id args =>
          match p.registry.structOf id args with
          | .ok d => !d.isObject
          | .error _ => false
        | _ => true

/-- The exports of a package and their generators, in order. -/
def exports (config : CompileOptions) : List (String × Generate Assembly.FuncId) :=
  let c : Context := ⟨p.registry, config.options⟩
  let functions := p.functions.flatMap fun f =>
    [(Export.decode f.name, Codec.unpackValues c f.params),
     (Export.encode f.name, Codec.packValues c f.results)] ++
    if config.echo && p.hasEcho f.params then [(Export.echo f.name, Codec.packValues c f.params)]
    else []
  let errors := p.errors.flatMap fun d =>
    [(Export.revert d.name, Codec.revert c d), (Export.raise d.name, Codec.raise c d)]
  let events := p.events.map fun d => (Export.emit d.name, Codec.emit c d)
  let objects := (p.objects.filter (·.arity ≤ 0)).flatMap fun d =>
    [(Export.save d.name, Storage.save c d.id []), (Export.load d.name, Storage.load c d.id []),
     (Export.read d.name, Storage.read c d.id []), (Export.delete d.name, Storage.delete c d.id [])]
  functions ++ errors ++ events ++ if config.storage then objects else []

def compile (config : CompileOptions) : Except Error Artifact := do
  let options := config.options.withDefaults
  let exports := p.exports { config with options }
  match (exports.forM fun (name, gen) => Export.add name gen).run
      (Prelude.start p.home.name options) with
  | .error e _ => throw e
  | .ok () a =>
    a.draft.checkNumbers
    let module ← a.draft.link
    let entries ← p.interface
    return { module, entries, exports := exports.map (·.1),
             instantiations := a.cache.entries.length }

end Package

end MoveCodec
