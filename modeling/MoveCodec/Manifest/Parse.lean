import MoveCodec.Error
import MoveCodec.Manifest.Schema

/-!
# Accepted manifests

A manifest is read from its document and checked before anything is resolved. Structs, enums,
errors and events share one set of names; functions have their own.
-/
namespace MoveCodec.Manifest

def invalid (kind detail : String) : Error :=
  .report { phase := some .manifest, kind := some .invalidInput, path := [kind], detail }

def duplicate (kind name detail : String) : Error :=
  .report { phase := some .manifest, kind := some .duplicate, path := [kind, name], detail }

/-- The names given so far, each with its section. -/
abbrev Names := List (String × String)

/-- Gives a name to a declaration of a section. -/
def takeName (kind name : String) (taken : Names) : Except Error Names :=
  if name = "" then .error (invalid kind "name is required")
  else match taken.lookup name with
    | some earlier => .error (duplicate kind name ("already declared as " ++ earlier))
    | none => .ok ((name, kind) :: taken)

def checkFields (kind owner : String) (taken : List String) :
    List FieldDecl → Except Error Unit
  | [] => .ok ()
  | f :: rest =>
    if f.name = "" ∨ f.type = "" then
      .error (invalid kind (owner ++ ": fields need a name and a type"))
    else if f.name ∈ taken then
      .error (invalid kind (owner ++ ": duplicate field " ++ Text.quote f.name))
    else checkFields kind owner (f.name :: taken) rest

def checkStruct (taken : Names) (d : StructDecl) : Except Error Names := do
  let taken ← takeName "struct" d.name taken
  if d.arity < 0 then throw (invalid "struct" (d.name ++ ": negative type-params"))
  checkFields "struct" d.name [] d.fields
  return taken

def checkEnum (taken : Names) (d : EnumDecl) : Except Error Names := do
  let taken ← takeName "enum" d.name taken
  if d.arity < 0 then throw (invalid "enum" (d.name ++ ": negative type-params"))
  if d.plain.isEmpty ∧ d.variants.isEmpty then throw (invalid "enum" (d.name ++ ": no variants"))
  d.variants.forM fun v => checkFields "enum" (d.name ++ "::" ++ v.name) [] v.fields
  return taken

def checkError (taken : Names) (d : StructDecl) : Except Error Names := do
  let taken ← takeName "error" d.name taken
  if d.arity ≠ 0 then throw (invalid "error" (d.name ++ ": errors cannot be generic"))
  checkFields "error" d.name [] d.fields
  return taken

def checkEvent (taken : Names) (d : EventDecl) : Except Error Names := do
  let taken ← takeName "event" d.name taken
  if d.indexed < 0 ∨ 3 < d.indexed ∨ d.fields.length < d.indexed then
    throw (invalid "event"
      (d.name ++ ": indexed must be between 0 and min(3, fields), got " ++ toString d.indexed))
  checkFields "event" d.name [] d.fields
  return taken

def checkFunctions (taken : List String) : List FunctionDecl → Except Error Unit
  | [] => .ok ()
  | f :: rest =>
    if f.name = "" then .error (invalid "function" "name is required")
    else if f.name ∈ taken then .error (duplicate "function" f.name "function declared twice")
    else checkFunctions (f.name :: taken) rest

/-- The first fault of a manifest, section by section. -/
def check (m : Manifest) : Except Error Unit := do
  if m.package.name = "" then throw (invalid "package" "name is required")
  let b := m.build
  if b.maxPages ≠ 0 ∧ b.maxPages < b.pages then
    throw (invalid "build"
      ("max-memory-pages " ++ toString b.maxPages.toNat ++ " is below memory-pages " ++
        toString b.pages.toNat))
  let taken ← m.structs.foldlM checkStruct []
  let taken ← m.enums.foldlM checkEnum taken
  let taken ← m.errors.foldlM checkError taken
  let _ ← m.events.foldlM checkEvent taken
  checkFunctions [] m.functions

def parseFault : Error :=
  .wrapped { phase := some .manifest, kind := some .invalidInput, detail := "parse error" }
    (.outside (.document "malformed document"))

/-- Reads and checks a manifest. Keys without a meaning are refused. -/
def parse (source : String) : Except Error Manifest := do
  let some (m, unknown) := (Toml.Document.parse? source).bind ofDocument?
    | throw parseFault
  unless unknown.isEmpty do
    throw (.invalidInput .manifest "" ("unknown keys: " ++ ", ".intercalate unknown))
  let m := m.withDefaults
  check m
  return m

end MoveCodec.Manifest
