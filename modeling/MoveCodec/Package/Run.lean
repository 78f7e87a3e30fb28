import MoveCodec.Machine.Instance
import MoveCodec.Package.Compile
import MoveCodec.Wasm.Decode

/-!
# Running a compiled package

A module is checked by instantiating it on the simulated host. Call data is decoded by running the
decoder of a function and then its re-encoder: a canonical encoding comes back unchanged.
-/
namespace MoveCodec

open Machine

def instantiateBinary (engine : Engine) (host : Host) (wasm : Bytes) : Except Error Instance :=
  match Wasm.Module.decode wasm with
  | .error fault => .error (compileFault fault.message)
  | .ok m => instantiate engine host m

/-- The exports that are not there are refused, the first first. -/
def checkExported (i : Instance) (names : List String) : Except Error Unit :=
  match names.find? fun n => !i.isExported n with
  | some n => .error (.notFound .host "export" n)
  | none => .ok ()

/-- A module instantiates and has all exports that are asked for. -/
def verify (wasm : Bytes) (exports : List String) : Except Error Unit := do
  checkExported (← instantiateBinary {} {} wasm) exports

def wrapFailure {α : Type} (phase : Phase) (kind : ErrorKind) (detail : String)
    (act : Session α) : Session α :=
  tryCatch act fun e => throw (.wrapped { phase := some phase, kind := some kind, detail } e)

/-- The decoded arguments of a call, encoded again. -/
def decodeSession (function : String) (args : Bytes) : Session Bytes := do
  let ptr ← Session.place args
  let record ← wrapFailure .unpack .invalidInput ("decode " ++ function)
    (Session.callWord (Export.decode function) [ptr.toNat])
  let out ← wrapFailure .pack .internal ("encode " ++ function)
    (Session.callWord (Export.echo function) [record.toNat])
  Session.readSized out

/-- Decodes call data, selector included, with the decoder of a function and gives the encoding of
what was decoded. The module must have the re-encoder and the allocator. -/
def Artifact.decode (a : Artifact) (function : String) (calldata : Bytes)
    (origin : Vector UInt8 20) : Except Error Bytes := do
  if calldata.length < Wire.selectorSize.toNat then
    throw (.invalidInput .host ""
      ("call data is " ++ toString calldata.length ++ " bytes, shorter than a selector"))
  let i ← instantiateBinary {} { origin } a.wasm
  checkExported i [Export.decode function, Export.echo function, "allocate"]
  match (decodeSession function (calldata.drop Wire.selectorSize.toNat)).run i with
  | .ok out _ => return out
  | .error e _ => throw e

end MoveCodec
