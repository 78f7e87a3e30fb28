import MoveCodec.Codec.Values

/-!
# Errors and events

A revert payload is the selector of an error followed by its packed fields. A log has the hash of
the event's signature as its first topic, the indexed fields as further topics, and the other
fields, packed, as its data.
-/
namespace MoveCodec.Codec

open Wasm Wasm.Emit Assembly Prelude Machine

def checkRole (d : StructDef) (role : StructRole) (what : String) : Except Error Unit :=
  if d.role = role then .ok ()
  else .error (.invalidInput .pack d.name ("struct is not declared as " ++ what))

/-- The field types of an error or event with their offsets in the record. -/
def payloadFields (c : Context) (d : StructDef) : Except Error (List (MoveType × UInt32)) := do
  let ts ← c.registry.payloadTypes .pack d
  let (offsets, _) ← c.registry.fieldPlaces d.id []
  return ts.zip offsets

/-- The first bytes of a text's hash as a constant that is stored least significant byte first. -/
def selectorConst (signature : String) : UInt32 :=
  UInt32.ofNat (Bytes.toNatLE (Wire.selector signature))

/-- The function that makes the revert payload of an error: its length, the selector and the
fields. -/
def revert (c : Context) (d : StructDef) : Generate FuncId := do
  lift (checkRole d .error "an error")
  let fields ← lift (payloadFields c d)
  let signature ← lift (c.registry.payloadSignature d)
  request "revert" [d.type] fun name => do
    let parts ← under d.name (tupleParts c fields)
    let lead : Code := [push 1, const (selectorConst signature), store 4]
    define name [.i32] [.i32]
      (pure ([.i32, .i32], tupleCode 0 1 2 parts Wire.selectorSize lead ++ [push 1]))

def handOver (write : FuncId) (out : UInt32) : Code :=
  addr out 4 ++ [push out, load 0, call write]

/-- The function that hands the payload of an error to the host and gives the status of a failed
call. -/
def raise (c : Context) (d : StructDef) : Generate FuncId := do
  let revert ← revert c d
  let write ← importHost c .writeResult
  request "raise" [d.type] fun name =>
    define name [.i32] [.i32]
      (pure ([.i32], [push 0, call revert, pop 1] ++ handOver write 1 ++ [const 1]))

/-- Indexed fields are single static words. -/
def checkTopics (r : Registry) (d : StructDef) (ts : List MoveType) : Except Error Unit :=
  ts.forM fun t => do
    let dynamic ← within d.name (r.isDynamic t)
    let head ← r.headSize t
    if dynamic ∨ head ≠ Wire.wordSize then
      throw (.unsupported .pack d.name "indexed fields must be single-word static values")

def topicCode (topic : Word) : Code :=
  [0, 8, 16, 24].flatMap fun i =>
    [push 1, const64 (UInt64.ofNat (Bytes.toNatLE ((topic.toList.drop i).take 8))),
     store64 (4 + UInt32.ofNat i)]

/-- Packs indexed fields, each into the word of its topic. -/
def topicsCode : (at' : UInt32) → List Part → Code
  | _, [] => []
  | at', p :: ps =>
    [push 0, loadValue p.type p.offset] ++ addr 1 at' ++ addr 1 at' ++ [call p.func] ++
      topicsCode (at' + 32) ps

def emit (c : Context) (d : StructDef) : Generate FuncId := do
  lift (checkRole d .event "an event")
  let fields ← lift (payloadFields c d)
  if d.indexed < 0 ∨ Registry.maxIndexed < d.indexed ∨ fields.length < d.indexed then
    throw (.outOfBounds .pack [d.name] d.indexed (min fields.length 3 : Nat))
  let indexed := d.indexed.toNat
  lift (checkTopics c.registry d ((fields.take indexed).map (·.1)))
  let signature ← lift (c.registry.payloadSignature d)
  let log ← importHost c .emitLog
  request "emit" [d.type] fun name => do
    let topics ← under d.name (tupleParts c (fields.take indexed))
    let data ← under d.name (tupleParts c (fields.drop indexed))
    let count := 1 + UInt32.ofNat indexed
    let lead := topicCode (Wire.topic signature) ++ topicsCode 36 topics
    define name [.i32] []
      (pure ([.i32, .i32], tupleCode 0 1 2 data (32 * count) lead ++
        addr 1 4 ++ [push 1, load 0, const count, call log]))

end MoveCodec.Codec
