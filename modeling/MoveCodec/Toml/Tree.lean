import MoveCodec.Toml.Expr

/-!
# TOML documents as trees

The statements of a document are entered into one tree, in order. A table that exists only because
a longer key went through it is implicit and may still be defined once; an array then takes its
place. Inline tables stay open: a later header or key may add to them. Everything else that defines
a key twice, or goes through a key that is no table, is refused.
-/
namespace MoveCodec.Toml

inductive Value where
  | string (s : String)
  | integer (n : Int)
  | float
  | bool (b : Bool)
  | dateTime
  | array (items : List Value)
  | table (entries : List (String × Value))
  /-- An array that headers or inline tables have filled with tables. -/
  | tables (items : List (List (String × Value)))

def Expr.isArray : Expr → Bool
  | .array _ => true
  | _ => false

abbrev Table := List (String × Value)

namespace Table

/-- Sets a key, at its old place where it has one. -/
def put (t : Table) (k : String) (v : Value) : Table :=
  if (t.lookup k).isSome then t.map fun (k', old) => (k', if k' = k then v else old)
  else t ++ [(k, v)]

/-- Changes the table at a path; the last table of an array of tables counts. -/
def alter (f : Table → Option Table) : Key → Table → Option Table
  | [], t => f t
  | k :: ks, t =>
    match t.lookup k with
    | some (.table inner) => do return t.put k (.table (← alter f ks inner))
    | some (.tables items) =>
      match items.getLast? with
      | some inner => do return t.put k (.tables (items.dropLast ++ [← alter f ks inner]))
      | none => none
    | _ => none

def at? : Key → Table → Option Table
  | [], t => some t
  | k :: ks, t =>
    match t.lookup k with
    | some (.table inner) => at? ks inner
    | some (.tables items) => items.getLast?.bind (at? ks)
    | _ => none

end Table

structure Build where
  root : Table := []
  /-- Tables that only longer keys have made. -/
  implicit : List Key := []
  /-- Keys whose value was written as an array. -/
  arrays : List Key := []
  /-- Every key that was written, in order. -/
  written : List Key := []

namespace Build

abbrev Building := StateT Build Option

def addImplicit (k : Key) : Building Unit :=
  modify fun b => { b with implicit := k :: b.implicit }

def removeImplicit (k : Key) : Building Unit :=
  modify fun b => { b with implicit := b.implicit.filter (· ≠ k) }

def write (k : Key) : Building Unit := modify fun b => { b with written := b.written ++ [k] }

/-- Notes whether a key was written as an array. An empty key stands for its table, the outermost
table excepted. -/
def mark (context : Key) (k : String) (isArray : Bool) : Building Unit := do
  let path := if k = "" ∧ context ≠ [] then context else context ++ [k]
  modify fun b =>
    let others := b.arrays.filter (· ≠ path)
    { b with arrays := if isArray then path :: others else others }

def change (f : Table → Option Table) (context : Key) : Building Unit := do
  let b ← get
  set { b with root := ← Table.alter f context b.root }

/-- Gives a key of a table its value. A key that is taken must be implicit: a table then stays as
it is, and an array replaces it. -/
def setValue (context : Key) (k : String) (v : Value) : Building Unit := do
  let b ← get
  let t ← Table.at? context b.root
  let path := context ++ [k]
  let put := change (fun t => some (t.put k v)) context
  if (t.lookup k).isNone then put
  else if path ∈ b.implicit then
    removeImplicit path
    if path ∈ b.arrays then put
  else failure

def openParents (context : Key) : Key → Building Unit
  | [] => return
  | k :: ks => do
    let t ← Table.at? context (← get).root
    if (t.lookup k).isNone then
      addImplicit (context ++ [k])
      change (fun t => some (t.put k (.table []))) context
    match (← Table.at? context (← get).root).lookup k with
    | some (.table _) | some (.tables _) => openParents (context ++ [k]) ks
    | _ => failure

def openTable (path : Key) (isArray : Bool) : Building Unit := do
  let context := path.dropLast
  let k := path.getLastD ""
  openParents [] context
  if isArray then
    let t ← Table.at? context (← get).root
    match t.lookup k with
    | none => change (fun t => some (t.put k (.tables [[]]))) context
    | some (.tables items) => change (fun t => some (t.put k (.tables (items ++ [[]])))) context
    | some _ => failure
  else setValue context k (.table [])

def openDotted (context : Key) : Key → Building Unit
  | [] => return
  | k :: ks => do
    addImplicit (context ++ [k])
    openTable (context ++ [k]) false
    openDotted (context ++ [k]) ks

def setDotted (v : Value) (k : String) : Key → Table → Option Table
  | [], t => some (t.put k v)
  | part :: parts, t =>
    match t.lookup part with
    | none => do return t.put part (.table (← setDotted v k parts []))
    | some (.table inner) => do return t.put part (.table (← setDotted v k parts inner))
    | some _ => none

mutual

/-- The value of an expression at a key. What an inline table holds is entered into the tree, too;
`inArray` says that the expression is an item. -/
def value (context : Key) (k : String) (inArray : Bool) : Expr → Building Value
  | .string s => return .string s
  | .integer n => return .integer n
  | .float => return .float
  | .bool b => return .bool b
  | .dateTime => return .dateTime
  | .array es => do
    mark context k true
    return .array (← items context k es)
  | .inlineTable es => do
    let path := context ++ [k]
    addImplicit path
    openTable path inArray
    return .table (← entries path [] es)

def items (context : Key) (k : String) : List Expr → Building (List Value)
  | [] => return []
  | e :: es => do
    let v ← value context k true e
    return v :: (← items context k es)

/-- The entries of an inline table, which `own` collects. -/
def entries (path : Key) (own : Table) : List (Key × Expr) → Building Table
  | [] => return own
  | (key, e) :: rest => do
    let parents := key.dropLast
    let k := key.getLastD ""
    openDotted path parents
    let context := path ++ parents
    write (context ++ [k])
    let v ← value context k false e
    setValue context k v
    mark context k e.isArray
    let own ← setDotted v k parents own
    entries path own rest

end

/-- Enters a statement; the result is the table that the next assignment belongs to. -/
def enter (context : Key) : Statement → Building Key
  | .table key => do
    openTable key false
    mark key "" false
    write key
    return key
  | .tables key => do
    openTable key true
    mark key "" false
    write key
    return key
  | .assign key e => do
    let parents := key.dropLast
    let k := key.getLastD ""
    openDotted context parents
    let inner := context ++ parents
    write (inner ++ [k])
    let v ← value inner k false e
    setValue inner k v
    mark inner k e.isArray
    return context

end Build

structure Document where
  root : Table
  written : List Key

def Document.parse? (source : String) : Option Document := do
  let statements ← readDocument source
  let (_, b) ← (statements.foldlM Build.enter []).run {}
  return { root := b.root, written := b.written }

end MoveCodec.Toml
