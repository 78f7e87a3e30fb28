import MoveCodec.Types.Registry

/-!
# Framework definitions

The definitions the virtual machine knows: an identifier wraps an address, a unique identifier
wraps an identifier, a string wraps its bytes, and there is one fixed byte string type for each
length from 1 to 32.
-/
namespace MoveCodec.Framework

def identifier : DefId := ⟨.object, 0⟩
def uniqueIdentifier : DefId := ⟨.object, 1⟩
def txContext : DefId := ⟨.txContext, 0⟩
def string : DefId := ⟨.string, 0⟩

/-- The fixed byte string of length `n`, for `n` from 1 to 32. -/
def bytes (n : Nat) : DefId := ⟨.bytes, UInt16.ofNat (n + 65535)⟩

/-- Plain data: it may be copied, dropped and stored. -/
def data : Abilities := { copy := true, drop := true, store := true }

def definitions : List StructDef :=
  [{ id := identifier, name := "ID", abilities := data,
     fields := [⟨"bytes", .address⟩] },
   { id := uniqueIdentifier, name := "UID", abilities := { store := true },
     fields := [⟨"id", .struct identifier []⟩] },
   { id := txContext, name := "TxContext", abilities := { drop := true } },
   { id := string, name := "String", abilities := data,
     fields := [⟨"bytes", .vector .u8⟩] }] ++
  (List.range 32).map fun i =>
    { id := bytes (i + 1), name := "Bytes" ++ toString (i + 1), abilities := data }

/-- Adds the framework's definitions; stops at the first that is refused. What was added before it
stays. -/
def register (r : Registry) : Except Error Unit × Registry :=
  definitions.foldl (fun (outcome, r) d =>
    match outcome with
    | .error e => (.error e, r)
    | .ok () =>
      match r.addStruct d with
      | .ok (_, r) => (.ok (), r)
      | .error e => (.error e, r)) (.ok (), r)

end MoveCodec.Framework
