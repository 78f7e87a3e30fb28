import MoveCodec.Bytes

/-!
# Files

Commands reach files through the interface `Files`, so that they can be run on a disk or on a tree
in memory. A path is divided by slashes.
-/
namespace MoveCodec

namespace Path

/-- Removes the parts of a path that have no effect. A path that goes nowhere is `.`. -/
def clean (path : String) : String :=
  let rooted := path.startsWith "/"
  let parts := (path.splitOn "/").foldl (fun (done : List String) part =>
    if part = "" ∨ part = "." then done
    else if part = ".." then
      match done with
      | [] => if rooted then [] else [".."]
      | last :: rest => if last = ".." then ".." :: done else rest
    else part :: done) []
  let text := "/".intercalate parts.reverse
  if rooted then "/" ++ text else if text = "" then "." else text

def join (directory name : String) : String :=
  if directory = "" then clean name else clean (directory ++ "/" ++ name)

def dropExtension (path : String) : String :=
  let last := (path.toList.reverse.takeWhile (· != '/'))
  let extension := last.takeWhile (· != '.')
  if extension.length < last.length then
    String.ofList (path.toList.take (path.length - extension.length - 1))
  else path

def dropEnding (ending path : String) : String :=
  if path.endsWith ending then String.ofList (path.toList.take (path.length - ending.length))
  else path

end Path

inductive FileReason where
  | missing
  | notDirectory
  | isDirectory
  | nameTooLong
  /-- The path holds a character that no path can hold. -/
  | invalid
  | other (text : String)
  deriving DecidableEq, Repr

def FileReason.message : FileReason → String
  | .missing => "no such file or directory"
  | .notDirectory => "not a directory"
  | .isDirectory => "is a directory"
  | .nameTooLong => "file name too long"
  | .invalid => "invalid argument"
  | .other text => text

/-- A failed operation on a file: `step` is what was tried. -/
structure FileFault where
  step : String
  path : String
  reason : FileReason
  deriving DecidableEq, Repr

def FileFault.message (f : FileFault) : String :=
  f.step ++ " " ++ f.path ++ ": " ++ f.reason.message

class Files (m : Type → Type) where
  isDirectory : String → m Bool
  read : String → m (Except FileFault Bytes)
  write : String → Bytes → m (Except FileFault Unit)

/-- The names that lead to a file from the working directory. A place outside begins with a `..` for
every directory that is left, or with a single `/` for the root. -/
abbrev Place := List String

namespace Place

def root : Place := ["/"]

/-- The directory above a place; the root is above itself. -/
def parent (p : Place) : Place :=
  match p.getLast? with
  | none | some ".." => p ++ [".."]
  | some "/" => p
  | some _ => p.dropLast

/-- The place lies in the working directory. -/
def isInside (p : Place) : Bool := p.head? != some ".." && p.head? != some "/"

def standard : List Place :=
  root :: ["bin", "dev", "etc", "home", "lib", "opt", "proc", "root", "run", "sbin", "srv", "sys",
    "tmp", "usr", "var"].map fun name => root ++ [name]

def sink : Place := root ++ ["dev", "null"]

end Place

def Path.maxPart : Nat := 255

def Path.maxLength : Nat := 4095

/-- Files in memory. Directories are what files stand in. -/
structure FileTree where
  files : List (Place × Bytes) := []

namespace FileTree

def contents? (t : FileTree) (p : Place) : Option Bytes :=
  if p = Place.sink then some [] else t.files.lookup p

def isDirectory (t : FileTree) (p : Place) : Bool :=
  p.all (· == "..") || Place.standard.contains p ||
    t.files.any fun (file, _) => p.length < file.length && p.isPrefixOf file

def set (t : FileTree) (p : Place) (contents : Bytes) : FileTree :=
  if p = Place.sink then t
  else if (t.contents? p).isSome then
    { files := t.files.map fun (file, old) => (file, if file = p then contents else old) }
  else { files := t.files ++ [(p, contents)] }

def newFiles (t earlier : FileTree) : List (Place × Bytes) :=
  t.files.filter fun (p, _) => p.isInside && (earlier.files.lookup p).isNone

/-- The place of one part of a path in the directory `here`. There need not be a file. -/
def step (t : FileTree) (here : Place) (part : String) : Except FileReason Place :=
  if !t.isDirectory here then
    .error (if (t.contents? here).isSome then .notDirectory else .missing)
  else if part = "" ∨ part = "." then .ok here
  else if part = ".." then .ok here.parent
  else if Path.maxPart < part.utf8ByteSize then .error .nameTooLong
  else .ok (here ++ [part])

/-- The place that a path names. With `asDirectory`, what stands before the last part has to lead to
a directory, and that directory is the result. -/
def resolve (t : FileTree) (path : String) (asDirectory : Bool) : Except FileReason Place :=
  if path.toList.contains '\x00' then .error .invalid
  else if path = "" then .error .missing
  else if Path.maxLength < path.utf8ByteSize then .error .nameTooLong
  else
    let parts := path.splitOn "/"
    let parts :=
      if asDirectory then ((parts.reverse.dropWhile (· == "")).drop 1).reverse ++ [""] else parts
    parts.foldlM t.step (if path.startsWith "/" then Place.root else [])

def read (t : FileTree) (path : String) : Except FileFault Bytes :=
  match t.resolve path false with
  | .error reason => .error ⟨"open", path, reason⟩
  | .ok place =>
    match t.contents? place with
    | some bs => .ok bs
    | none =>
      if t.isDirectory place then .error ⟨"read", path, .isDirectory⟩
      else .error ⟨"open", path, .missing⟩

/-- Writes a file in a directory that exists. A path that ends in a slash names a directory, whether
it exists or not. -/
def write (t : FileTree) (path : String) (contents : Bytes) : Except FileFault FileTree :=
  match t.resolve path (path.endsWith "/") with
  | .error reason => .error ⟨"open", path, reason⟩
  | .ok place =>
    if t.isDirectory place then .error ⟨"open", path, .isDirectory⟩
    else .ok (t.set place contents)

end FileTree

instance : Files (StateM FileTree) where
  isDirectory path := do
    let t ← get
    return match t.resolve path false with
      | .ok place => t.isDirectory place
      | .error _ => false
  read path := do return (← get).read path
  write path contents := do
    match (← get).write path contents with
    | .ok t =>
      set t
      return .ok ()
    | .error f => return .error f

end MoveCodec
