import MoveCodec.Error
import MoveCodec.Hash.Keccak
import MoveCodec.Machine.HostFunc
import MoveCodec.Machine.Memory

/-!
# Host

What a contract finds around it: call data, a place for its result, storage behind a write cache,
the transaction origin, a hash and a log. A host function that is given a pointer outside memory,
or a bad number of topics, ends the call with an error.
-/
namespace MoveCodec.Machine

/-- Words by word, each key once. -/
abbrev Slots := List (Word × Word)

namespace Slots

def find? (s : Slots) (k : Word) : Option Word := s.lookup k

def erase (s : Slots) (k : Word) : Slots := s.filter fun e => e.1 != k

def set (s : Slots) (k v : Word) : Slots := (k, v) :: erase s k

/-- Commits a value: zero is the value of keys that are not there. -/
def commit (s : Slots) (k v : Word) : Slots := if v = Word.zero then erase s k else set s k v

end Slots

structure Log where
  topics : List Word
  data : Bytes
  deriving DecidableEq

structure Host where
  storage : Slots := []
  pending : Slots := []
  calldata : Bytes := []
  result : Bytes := []
  logs : List Log := []
  origin : Vector UInt8 20 := Vector.replicate 20 0
  flushes : Nat := 0

namespace Host

/-- The refusal of the bytes up to `stop`; a size of `2 ^ 32` shows as zero. -/
def outOfBounds (m : Memory) (stop : Nat) : Error :=
  .outOfBounds .host [] stop (m.size % UInt32.size : Nat)

def read (m : Memory) (a : UInt32) (n : Nat) : Except Error Bytes :=
  match m.read? a.toNat n with
  | some bs => .ok bs
  | none => .error (outOfBounds m (a.toNat + n))

def write (m : Memory) (a : UInt32) (bs : Bytes) : Except Error Memory :=
  match m.write? a.toNat bs with
  | some m => .ok m
  | none => .error (outOfBounds m (a.toNat + bs.length))

def readWord (m : Memory) (a : UInt32) : Except Error Word :=
  Word.ofBytes <$> read m a 32

/-- The value a guest sees under a key. -/
def load (h : Host) (k : Word) : Word :=
  match h.pending.find? k with
  | some v => v
  | none => (h.storage.find? k).getD Word.zero

def committed (h : Host) (k : Word) : Word := (h.storage.find? k).getD Word.zero

def cache (h : Host) (k v : Word) : Host := { h with pending := h.pending.set k v }

/-- Commits what waits, the oldest first. -/
def flush (h : Host) : Host :=
  { h with
    storage := h.pending.foldr (fun (k, v) s => Slots.commit s k v) h.storage
    pending := []
    flushes := h.flushes + 1 }

def splitTopics : Nat → Bytes → List Word × Bytes
  | 0, bs => ([], bs)
  | n + 1, bs =>
    let (ws, rest) := splitTopics n (bs.drop 32)
    (Word.ofBytes bs :: ws, rest)

def call (h : Host) (m : Memory) : HostFunc → List UInt32 → Except Error (Memory × Host)
  | .readArgs, [dest] => do return (← write m dest h.calldata, h)
  | .writeResult, [ptr, n] => do
    let bs ← read m ptr n.toNat
    return (m, { h with result := bs })
  | .keccak, [ptr, n, out] => do
    let bs ← read m ptr n.toNat
    return (← write m out (Keccak.hash bs).toList, h)
  | .storageLoad, [key, dest] => do
    let k ← readWord m key
    return (← write m dest (h.load k).toList, h)
  | .storageCache, [key, value] => do
    let k ← readWord m key
    let v ← readWord m value
    return (m, h.cache k v)
  | .storageFlush, [_] => .ok (m, h.flush)
  | .txOrigin, [dest] => do return (← write m dest h.origin.toList, h)
  | .emitLog, [ptr, n, topics] => do
    if 4 < topics ∨ n < topics * 32 then
      throw (.invalidInput .host ""
        ("emit_log with " ++ toString topics.toNat ++ " topics over " ++ toString n.toNat ++
          " bytes"))
    let bs ← read m ptr n.toNat
    let (topics, data) := splitTopics topics.toNat bs
    return (m, { h with logs := h.logs ++ [⟨topics, data⟩] })
  | f, _ => .error (.internal .host ("wrong number of arguments for " ++ f.name))

end Host

end MoveCodec.Machine
