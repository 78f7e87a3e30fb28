/-!
# Host functions

The functions a module can import from its host. All parameters are 32-bit words and there are no
results.
-/
namespace MoveCodec.Machine

inductive HostFunc where
  | readArgs
  | writeResult
  | keccak
  | storageLoad
  | storageCache
  | storageFlush
  | txOrigin
  | emitLog
  deriving DecidableEq, Repr

namespace HostFunc

def all : List HostFunc :=
  [.readArgs, .writeResult, .keccak, .storageLoad, .storageCache, .storageFlush, .txOrigin,
   .emitLog]

def name : HostFunc → String
  | .readArgs => "read_args"
  | .writeResult => "write_result"
  | .keccak => "native_keccak256"
  | .storageLoad => "storage_load_bytes32"
  | .storageCache => "storage_cache_bytes32"
  | .storageFlush => "storage_flush_cache"
  | .txOrigin => "tx_origin"
  | .emitLog => "emit_log"

def arity : HostFunc → Nat
  | .readArgs => 1
  | .writeResult => 2
  | .keccak => 3
  | .storageLoad => 2
  | .storageCache => 2
  | .storageFlush => 1
  | .txOrigin => 1
  | .emitLog => 3

def ofName? (s : String) : Option HostFunc := all.find? (·.name == s)

end HostFunc

end MoveCodec.Machine
