import MoveCodec.Command.Files
import MoveCodec.Command.Flags
import MoveCodec.Package.Run

/-!
# Commands

Every command loads packages, works on them and prints a report. Commands run in any monad with
files. What a command prints and the code it ends with are its outcome.
-/
namespace MoveCodec.Command

def programName : String := "movewasm"

/-- The manifest that is looked up in a package directory. -/
def manifestName : String := programName ++ ".toml"

/-- Why a command ends without success. -/
inductive Failure where
  | unknownCommand (word : String) (similar : List String)
  | flag (f : FlagFault)
  | tooMany (allowed given : Nat)
  | wrongCount (expected given : Nat)
  | colorMode (word : String)
  | calldata (f : Text.Hex.Fault)
  | origin
  | file (f : FileFault)
  | package (e : Error)
  | inFile (path : String) (e : Error)

/-- An error as the console shows it. A trap is followed by the head of its stack trace; frames are
not recorded. -/
def errorText (e : Error) : String :=
  e.messageBy fun c => some <|
    match c with
    | .trap _ => c.message ++ "\nwasm stack trace:\n"
    | _ => c.message

def Failure.message : Failure → String
  | .unknownCommand word similar =>
    "unknown command " ++ Text.quote word ++ " for " ++ Text.quote programName ++
      if similar.isEmpty then ""
      else "\n\nDid you mean this?\n" ++ String.join (similar.map fun s => "\t" ++ s ++ "\n")
  | .flag f => f.message
  | .tooMany allowed given =>
    "accepts at most " ++ toString allowed ++ " arg(s), received " ++ toString given
  | .wrongCount expected given =>
    "accepts " ++ toString expected ++ " arg(s), received " ++ toString given
  | .colorMode word => "--color must be auto, on or off, got " ++ Text.quote word
  | .calldata f => "calldata: " ++ f.message
  | .origin => "--origin must be 20 hex bytes"
  | .file f => f.message
  | .package e => errorText e
  | .inFile path e => path ++ ": " ++ errorText e

structure Style where
  colored : Bool := false
  document : Format.Json → String := Format.Json.indented ""

namespace Style

def paint (s : Style) (code text : String) : String :=
  if s.colored then "\x1b[" ++ code ++ "m" ++ text ++ "\x1b[0m" else text

def success (s : Style) (text : String) : String := s.paint "32" text
def note (s : Style) (text : String) : String := s.paint "33" text
def failure (s : Style) (text : String) : String := s.paint "31;1" text

end Style

structure Outcome where
  code : UInt32 := 0
  stdout : String := ""
  stderr : String := ""
  deriving DecidableEq, Repr

section

variable {m : Type → Type} [Monad m] [Files m]

abbrev Task (m : Type → Type) := ExceptT Failure m

def report {α : Type} (failure : Error → Failure) : Except Error α → Task m α
  | .ok a => return a
  | .error e => throw (failure e)

/-- A manifest, the path of its file and the path of the module it is built to. -/
structure Loaded where
  path : String
  output : String
  manifest : Manifest
  package : Package

/-- Loads a package from its manifest or from the directory that holds it. -/
def load (path : String) : Task m Loaded := do
  let path := if ← (Files.isDirectory path : m Bool) then Path.join path manifestName else path
  match ← (Files.read path : m _) with
  | .error f =>
    throw (.package (.wrapped
      { phase := some .manifest, kind := some .notFound, detail := "cannot read " ++ path }
      (.outside (.file f.message))))
  | .ok bs =>
    let manifest ← report .package (within path
      (match String.fromUTF8? ⟨bs.toArray⟩ with
        | some source => Manifest.parse source
        | none => .error Manifest.parseFault))
    let output :=
      if manifest.build.output = "" then Path.dropExtension path ++ ".wasm"
      else manifest.build.output
    let package ← report .package manifest.resolve
    return { path, output, manifest, package }

def write (path : String) (contents : Bytes) : Task m Unit := do
  match ← (Files.write path contents : m _) with
  | .ok () => return
  | .error f => throw (.file f)

def configOf (a : Arguments) (p : Loaded) : CompileOptions :=
  { options := p.manifest.options
    storage := a.boolean "storage" true
    echo := a.boolean "echo" false }

/-- The package argument; the working directory without one. -/
def packageOf (a : Arguments) : String := a.rest.headD "."

def buildPackage (style : Style) (a : Arguments) (path : String) : Task m String := do
  let p ← load path
  let artifact ← report (.inFile p.path) (p.package.compile (configOf a p))
  let wasm := artifact.wasm
  write p.output wasm
  if a.boolean "abi" false then
    let entries ← report .package p.package.interface
    write (Path.dropEnding ".wasm" p.output ++ ".abi.json")
      (Bytes.ofText (style.document (Interface.json entries)))
  return style.success "built " ++ p.output ++ " (" ++ toString artifact.exports.length ++
    " exports, " ++ toString artifact.instantiations ++ " functions, " ++ toString wasm.length ++
    " bytes)\n"

/-- Builds packages one after the other, up to the first that fails. -/
def buildAll (style : Style) (a : Arguments) : Task m String := do
  let paths := if a.rest.isEmpty then ["."] else a.rest
  return String.join (← paths.mapM (buildPackage style a))

def padded (width : Nat) (s : String) : String :=
  s ++ String.ofList (List.replicate (width - s.length) ' ')

def printSelectors (a : Arguments) : Task m String := do
  let p ← load (packageOf a)
  let entries ← report .package p.package.interface
  return p.package.home.render ++ "\n" ++ String.join (entries.map fun e =>
    padded 9 e.kind.name ++ " " ++ e.selectorText ++ " " ++ e.signature ++ "\n")

def printInterface (style : Style) (a : Arguments) : Task m String := do
  let p ← load (packageOf a)
  let entries ← report .package p.package.interface
  return style.document (Interface.json entries) ++ "\n"

def objectLayout (style : Style) (r : Registry) (d : StructDef) : String :=
  if 0 < d.arity then
    style.note (d.name ++ " is generic, layout depends on its instantiation\n")
  else match r.storageLayout d.id [] with
    | .error e => style.note (d.name ++ ": " ++ e.message ++ "\n")
    | .ok pieces =>
      d.name ++ "\n" ++ String.join ((Storage.describe pieces).map fun l => "  " ++ l ++ "\n")

def printLayouts (style : Style) (a : Arguments) : Task m String := do
  let p ← load (packageOf a)
  return String.join (p.package.objects.map (objectLayout style p.package.registry))

def verifyBuilt (style : Style) (a : Arguments) : Task m String := do
  let p ← load (packageOf a)
  let artifact ← report .package (p.package.compile (configOf a p))
  match ← (Files.read p.output : m _) with
  | .error f => throw (.file f)
  | .ok wasm =>
    report (.inFile p.output) (verify wasm artifact.exports)
    return style.success "ok " ++ p.output ++ " (" ++ toString artifact.exports.length ++
      " exports)\n"

/-- Reads bytes in hexadecimal, with or without a mark. -/
def hexArgument (s : String) : Except Text.Hex.Fault Bytes :=
  let drop (mark : String) (s : String) : String :=
    if s.startsWith mark then String.ofList (s.toList.drop mark.length) else s
  Text.Hex.decode (drop "0X" (drop "0x" s))

/-- The origin argument: twenty bytes, or nothing for zero. -/
def originOf (s : String) : Except Failure (Vector UInt8 20) :=
  if s = "" then .ok (Vector.replicate 20 0)
  else match hexArgument s with
    | .ok bs =>
      if h : bs.length = 20 then .ok ⟨bs.toArray, by simpa using h⟩ else .error .origin
    | .error _ => .error .origin

def wordLines (style : Style) (bs : Bytes) : String :=
  String.join ((List.range ((bs.length + 31) / 32)).map fun i =>
    let offset := String.ofList (Nat.toDigits 16 (32 * i))
    let shown := String.ofList (List.replicate (4 - offset.length) '0') ++ offset
    style.note shown ++ " " ++ Text.Hex.encode ((bs.drop (32 * i)).take 32) ++ "\n")

/-- Decodes call data and prints its encoding. -/
def decodeCall (style : Style) (a : Arguments) (function calldata : String) : Task m String := do
  let p ← load (a.text "package" ".")
  let calldata ← match hexArgument calldata with
    | .ok bs => pure bs
    | .error f => throw (.calldata f)
  let origin ← match originOf (a.text "origin" "") with
    | .ok o => pure o
    | .error f => throw f
  let config := configOf a p
  let artifact ← report .package (p.package.compile
    { config with echo := true, options := { config.options with exportAllocator := true } })
  return wordLines style (← report .package (artifact.decode function calldata origin))

end

/-! ## Dispatch -/

inductive Verb where
  | build
  | selectors
  | abi
  | layout
  | verify
  | decode
  deriving DecidableEq, Repr

namespace Verb

def name : Verb → String
  | .build => "build"
  | .selectors => "selectors"
  | .abi => "abi"
  | .layout => "layout"
  | .verify => "verify"
  | .decode => "decode"

def all : List Verb := [.build, .selectors, .abi, .layout, .verify, .decode]

def commonFlags : List Flag := [⟨"color", .text, none⟩, ⟨"verbose", .boolean, some 'v'⟩]

def helpFlag : Flag := ⟨"help", .boolean, some 'h'⟩

def flags (v : Verb) : List Flag :=
  let codec : List Flag := [⟨"storage", .boolean, none⟩, ⟨"echo", .boolean, none⟩]
  helpFlag :: commonFlags ++
    match v with
    | .build => codec ++ [⟨"abi", .boolean, none⟩, ⟨"jobs", .integer, some 'j'⟩]
    | .verify => codec
    | .decode => codec ++ [⟨"package", .text, some 'p'⟩, ⟨"origin", .text, none⟩]
    | _ => []

/-- The number of plain arguments a command accepts. -/
def checkCount (v : Verb) (given : Nat) : Except Failure Unit :=
  match v with
  | .build => .ok ()
  | .decode => if given = 2 then .ok () else .error (.wrongCount 2 given)
  | _ => if given ≤ 1 then .ok () else .error (.tooMany 1 given)

def run {m : Type → Type} [Monad m] [Files m] (v : Verb) (style : Style) (a : Arguments) :
    Task m String :=
  match v with
  | .build => buildAll style a
  | .selectors => printSelectors a
  | .abi => printInterface style a
  | .layout => printLayouts style a
  | .verify => verifyBuilt style a
  | .decode => decodeCall style a (a.rest.headD "") (a.rest.getD 1 "")

end Verb

def usage : String :=
  "Usage:\n  " ++ programName ++ " [command]\n\nAvailable Commands:\n" ++
    String.join (Verb.all.map fun v => "  " ++ v.name ++ "\n")

/-- Whether colours are used; on their own they are not, since the output is no terminal. -/
def colorMode (mode : String) : Except Failure Bool :=
  if mode = "on" then .ok true
  else if mode = "off" ∨ mode = "auto" then .ok false
  else .error (.colorMode mode)

/-- What is to be done: print the usage, or run a command in a style. -/
inductive Plan where
  | usage
  | run (v : Verb) (style : Style) (a : Arguments)

def plan (style : Style) (args : List String) : Except Failure Plan := do
  let read (flags : List Flag) (args : List String) : Except Failure Arguments :=
    (Arguments.read flags {} none args).mapError .flag
  match (plainArguments Verb.commonFlags false args).head? with
  | none =>
    let _ ← read (Verb.helpFlag :: Verb.commonFlags) args
    return .usage
  | some word =>
    if word = "help" ∨ word = "completion" then return .usage
    match Verb.all.find? (·.name == word) with
    | none => throw (.unknownCommand word
        (suggestions (Verb.all.map Verb.name ++ ["completion"]) word))
    | some v =>
      let a ← read v.flags (removeWord Verb.commonFlags word false args)
      if a.boolean "help" false then return .usage
      v.checkCount a.rest.length
      let colored ← colorMode (a.text "color" "auto")
      return .run v { style with colored } a

def failed (style : Style) (f : Failure) : Outcome :=
  { code := 1, stderr := style.failure "error: " ++ f.message ++ "\n" }

def execute {m : Type → Type} [Monad m] [Files m] (style : Style) (args : List String) :
    m Outcome := do
  match plan style args with
  | .error f => return failed style f
  | .ok .usage => return { stdout := usage }
  | .ok (.run v style a) =>
    match ← (v.run style a : Task m String).run with
    | .ok text => return { stdout := text }
    | .error f => return failed style f

end MoveCodec.Command
