import MoveCodec.Manifest.Basic
import MoveCodec.Text.Quoted
import MoveCodec.Toml.Tree

/-!
# Manifests as documents

Which key of a document fills which part of a manifest. Keys match without regard to case, an exact
match first. The reader notes every key it uses, so that the others can be reported.
-/
namespace MoveCodec.Manifest

open Toml (Key Value Table)

namespace Schema

abbrev Reading := StateT (List Key) Option

/-- A way to read a value that stands at a key. -/
abbrev Reader (α : Type) := Key → Value → Reading α

def text : Reader String
  | _, .string s => return s
  | _, _ => failure

def integer : Reader Int
  | _, .integer n => return n
  | _, _ => failure

def boolean : Reader Bool
  | _, .bool b => return b
  | _, _ => failure

def word32 : Reader UInt32
  | _, .integer n => if 0 ≤ n ∧ n < UInt32.size then return UInt32.ofNat n.toNat else failure
  | _, _ => failure

/-- A negative number keeps its bits. -/
def word64 : Reader UInt64
  | _, .integer n => return UInt64.ofInt n
  | _, _ => failure

def list {α : Type} (item : Reader α) : Reader (List α)
  | path, .array vs => vs.mapM (item path)
  | path, .tables ts => ts.mapM fun t => item path (.table t)
  | _, _ => failure

/-- A key of a record and what its value does to the record. -/
structure Rule (α : Type) where
  key : String
  apply : Key → Value → α → Reading α

def rule {α β : Type} (key : String) (read : Reader β) (store : α → β → α) : Rule α :=
  ⟨key, fun path v a => do return store a (← read path v)⟩

/-- A character without regard to case; the long s and the Kelvin sign count as their letters. -/
def foldCase (c : Char) : Char :=
  if c = '\u017f' then 's' else if c = '\u212a' then 'k' else c.toLower

def sameKey (a b : String) : Bool := a.toList.map foldCase == b.toList.map foldCase

/-- The rule of a key: one of its exact name, else the first that differs in case only. -/
def findRule? {α : Type} (rules : List (Rule α)) (k : String) : Option (Rule α) :=
  (rules.find? (·.key == k)).or (rules.find? fun r => sameKey r.key k)

/-- A record of a table; keys without a rule are passed over. -/
def record {α : Type} (start : α) (rules : List (Rule α)) : Reader α
  | path, .table t =>
    t.foldlM (fun a (k, v) =>
      match findRule? rules k with
      | none => return a
      | some r => do
        modify ((path ++ [k]) :: ·)
        r.apply (path ++ [k]) v a) start
  | _, _ => failure

def package : Reader PackageDecl := record {} [
  rule "name" text fun p v => { p with name := v },
  rule "address" text fun p v => { p with address := v },
  rule "module" text fun p v => { p with module := v }]

def build : Reader BuildDecl := record {} [
  rule "host-module" text fun b v => { b with host := v },
  rule "memory-pages" word32 fun b v => { b with pages := v },
  rule "max-memory-pages" word32 fun b v => { b with maxPages := v },
  rule "objects-slot" word64 fun b v => { b with objectsSlot := v },
  rule "export-allocator" boolean fun b v => { b with exportAllocator := some v },
  rule "output" text fun b v => { b with output := v }]

def field : Reader FieldDecl := record {} [
  rule "name" text fun f v => { f with name := v },
  rule "type" text fun f v => { f with type := v }]

def struct : Reader StructDecl := record {} [
  rule "name" text fun d v => { d with name := v },
  rule "abilities" (list text) fun d v => { d with abilities := v },
  rule "type-params" integer fun d v => { d with arity := v },
  rule "fields" (list field) fun d v => { d with fields := v }]

def variant : Reader VariantDecl := record {} [
  rule "name" text fun d v => { d with name := v },
  rule "fields" (list field) fun d v => { d with fields := v }]

def enum : Reader EnumDecl := record {} [
  rule "name" text fun d v => { d with name := v },
  rule "abilities" (list text) fun d v => { d with abilities := v },
  rule "type-params" integer fun d v => { d with arity := v },
  rule "variants" (list text) fun d v => { d with plain := v },
  rule "variant" (list variant) fun d v => { d with variants := v }]

def event : Reader EventDecl := record {} [
  rule "name" text fun d v => { d with name := v },
  rule "indexed" integer fun d v => { d with indexed := v },
  rule "fields" (list field) fun d v => { d with fields := v }]

def function : Reader FunctionDecl := record {} [
  rule "name" text fun d v => { d with name := v },
  rule "params" (list text) fun d v => { d with params := v },
  rule "results" (list text) fun d v => { d with results := v }]

def manifest : Reader Manifest := record {} [
  rule "package" package fun m v => { m with package := v },
  rule "build" build fun m v => { m with build := v },
  rule "struct" (list struct) fun m v => { m with structs := v },
  rule "enum" (list enum) fun m v => { m with enums := v },
  rule "error" (list struct) fun m v => { m with errors := v },
  rule "event" (list event) fun m v => { m with events := v },
  rule "function" (list function) fun m v => { m with functions := v }]

def keyText (k : Key) : String :=
  let escape (c : Char) : List Char :=
    match c with
    | '"' => ['\\', '"']
    | '\\' => ['\\', '\\']
    | '\x08' => ['\\', 'b']
    | '\t' => ['\\', 't']
    | '\n' => ['\\', 'n']
    | '\x0c' => ['\\', 'f']
    | '\r' => ['\\', 'r']
    | c =>
      if c.toNat < 32 ∨ c.toNat = 127 then '\\' :: 'u' :: Text.hexDigits 4 c.toNat else [c]
  let part (s : String) : String :=
    if s ≠ "" ∧ s.toList.all Toml.Reader.isBareChar then s
    else "\"" ++ String.ofList (s.toList.flatMap escape) ++ "\""
  ".".intercalate (k.map part)

end Schema

/-- Reads a document as a manifest, with the texts of the keys that have no meaning. -/
def ofDocument? (d : Toml.Document) : Option (Manifest × List String) := do
  let (m, used) ← (Schema.manifest [] (.table d.root)).run []
  let unknown := (d.written.filter (!used.contains ·)).map Schema.keyText
  return (m, unknown.mergeSort fun a b => a ≤ b)

end MoveCodec.Manifest
