import MoveCodec.Assembly.Draft
import MoveCodec.Format.Cbor
import MoveCodec.Hash.Xxh3
import MoveCodec.Types.Substitution

/-!
# Instantiation cache

Generated functions are shared: one function for each kind and list of type arguments. Requests are
told apart by the canonical encoding of kind and arguments; the symbol of a function is its kind
followed, where there are arguments, by the hash of that encoding. A request that fails leaves no
entry behind, and a request for something that is still being generated fails.
-/
namespace MoveCodec

namespace MoveType

/-- The canonical form of a type with a definition, from those of its arguments. Parts that are
empty or zero are left out. -/
def definitionKey (code : Nat) (id : DefId) (args : List Cbor.Item) : Cbor.Item :=
  .map ([(1, .unsigned code)] ++
    (if id.home.name = "" then [] else [(2, .text id.home.name)]) ++
    [(3, .bytes id.home.address.toList)] ++
    (if id.index = 0 then [] else [(4, .unsigned id.index.toNat)]) ++
    (if args.isEmpty then [] else [(5, .array args)]))

mutual

/-- The canonical form of a type. Parts that are empty, zero or false are left out. -/
def key : MoveType → Cbor.Item
  | .vector e => .map [(1, .unsigned 9), (5, .array [key e])]
  | .struct id args => definitionKey 10 id (keys args)
  | .enum id args => definitionKey 11 id (keys args)
  | .ref m t => .map ([(1, .unsigned 12), (5, .array [key t])] ++ if m then [(6, .true)] else [])
  | .param i =>
    .map ((1, .unsigned 13) :: if i = 0 then [] else [(4, .unsigned i.toNat)])
  | .bool => .map [(1, .unsigned (kindCode .bool))]
  | .int w => .map [(1, .unsigned (kindCode (.int w)))]
  | .address => .map [(1, .unsigned (kindCode .address))]
  | .signer => .map [(1, .unsigned (kindCode .signer))]

def keys : List MoveType → List Cbor.Item
  | [] => []
  | t :: ts => key t :: keys ts

end

end MoveType

namespace Assembly

def requestKey (kind : String) (args : List MoveType) : Bytes :=
  Cbor.encode (.map ((1, .text kind) ::
    if args.isEmpty then [] else [(2, .array (args.map MoveType.key))]))

def symbol (kind : String) (args : List MoveType) : String :=
  if args.isEmpty then kind
  else kind ++ "_" ++
    String.ofList (Text.hexDigits 16 (Xxh3.hash (requestKey kind args)).toNat)

/-- An entry of the cache: its symbol, and the function once it is generated. -/
structure Cached where
  key : Bytes
  name : String
  func : Option FuncId := none

structure Cache where
  entries : List Cached := []
  /-- How often a generator was run. -/
  runs : Nat := 0

namespace Cache

def find? (c : Cache) (key : Bytes) : Option Cached := c.entries.find? (·.key == key)

def isTaken (c : Cache) (name : String) : Bool := c.entries.any (·.name == name)

def erase (c : Cache) (key : Bytes) : Cache :=
  { c with entries := c.entries.filter (·.key != key) }

def complete (c : Cache) (key : Bytes) (f : FuncId) : Cache :=
  { c with entries := c.entries.map fun e => if e.key == key then { e with func := some f } else e }

/-- The function of a request that was answered. -/
def lookup? (c : Cache) (kind : String) (args : List MoveType) : Option FuncId :=
  (c.find? (requestKey kind args)).bind (·.func)

end Cache

end Assembly

structure Assembly where
  draft : Assembly.Draft
  cache : Assembly.Cache := {}

/-- Generators change an assembly. What they did before they fail stays. -/
abbrev Generate := EStateM Error Assembly

namespace Assembly

def typesText (args : List MoveType) : String := ",".intercalate (args.map MoveType.render)

def symbolTaken (name : String) (args : List MoveType) : Error :=
  .report { phase := some .cache, kind := some .hashCollision, subject := typesText args,
            detail := "symbol " ++ Text.quote name ++ " is already taken" }

def editDraft (change : Draft → Draft) : Generate Unit :=
  modify fun a => { a with draft := change a.draft }

def editCache (change : Cache → Cache) : Generate Unit :=
  modify fun a => { a with cache := change a.cache }

def claim (name : String) (type : Wasm.FuncType) : Generate FuncId := do
  match (← get).draft.claim name type with
  | .ok (f, draft) =>
    modify fun a => { a with draft }
    return f
  | .error e => throw e

/-- Defines a function. The name is claimed before the body is made, and a failure of the body
leaves it claimed. -/
def define (name : String) (params results : List Wasm.ValType)
    (body : Generate (List Wasm.ValType × Wasm.Code)) : Generate FuncId := do
  let f ← claim name ⟨params, results⟩
  let (locals, code) ← body
  editDraft fun d => d.modify f (Entry.complete locals code)
  return f

/-- The function for a request: the one that is cached, or else the one that `gen` makes under the
symbol it is given. -/
def request (kind : String) (args : List MoveType) (gen : String → Generate FuncId) :
    Generate FuncId := do
  if let some a := args.find? fun a => !a.isConcrete then
    throw (.report { phase := some .cache, kind := some .foundTypeParameter, subject := a.render,
                     detail := kind ++ " requested with a generic argument" })
  let key := requestKey kind args
  let name := symbol kind args
  match (← get).cache.find? key with
  | some { func := some f, .. } => return f
  | some { func := none, .. } =>
    throw (.report { phase := some .cache, kind := some .instantiation, subject := typesText args,
                     detail := "recursive instantiation of " ++ name })
  | none =>
    let a ← get
    if a.cache.isTaken name || (a.draft.definition? name).isSome then
      throw (symbolTaken name args)
    editCache fun c => { entries := c.entries ++ [{ key, name }], runs := c.runs + 1 }
    let f ← tryCatch (gen name) fun e => do
      editCache (·.erase key)
      throw e
    let got := (← get).draft.nameOf f
    if got ≠ name then
      editCache (·.erase key)
      throw (.internal .cache
        ("generator for " ++ name ++ " returned " ++ Text.quote got))
    editCache (·.complete key f)
    return f

end Assembly

end MoveCodec
