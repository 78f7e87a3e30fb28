import MoveCodec.Text.Hex
import MoveCodec.Wasm.Trap

/-!
# Errors

An error is a report of this library, which names the phase and the kind of the failure, or comes
from outside. A report may wrap the error that caused it. `Error.message` is the only place where
an error becomes text.
-/
namespace MoveCodec

/-- The part of the library that gives a report. -/
inductive Phase where
  | types
  | classify
  | selector
  | pack
  | unpack
  | storage
  | cache
  | codegen
  | manifest
  | host
  deriving DecidableEq, Repr

def Phase.all : List Phase :=
  [.types, .classify, .selector, .pack, .unpack, .storage, .cache, .codegen, .manifest, .host]

def Phase.name : Phase → String
  | .types => "types"
  | .classify => "classify"
  | .selector => "selector"
  | .pack => "pack"
  | .unpack => "unpack"
  | .storage => "storage"
  | .cache => "cache"
  | .codegen => "codegen"
  | .manifest => "manifest"
  | .host => "host"

inductive ErrorKind where
  | foundTypeParameter
  | foundSigner
  | foundReference
  | refInsideRef
  | enumNotSimple
  | missingIdentity
  | dynamicStorageField
  | invalidFrameworkType
  | notFound
  | duplicate
  | hashCollision
  | invalidInput
  | outOfBounds
  | overflow
  | unsupported
  | internal
  | instantiation
  deriving DecidableEq, Repr

def ErrorKind.all : List ErrorKind :=
  [.foundTypeParameter, .foundSigner, .foundReference, .refInsideRef, .enumNotSimple,
   .missingIdentity, .dynamicStorageField, .invalidFrameworkType, .notFound, .duplicate,
   .hashCollision, .invalidInput, .outOfBounds, .overflow, .unsupported, .internal, .instantiation]

def ErrorKind.name : ErrorKind → String
  | .foundTypeParameter => "found_type_parameter"
  | .foundSigner => "found_signer"
  | .foundReference => "found_reference"
  | .refInsideRef => "ref_inside_ref"
  | .enumNotSimple => "enum_not_simple"
  | .missingIdentity => "missing_identity"
  | .dynamicStorageField => "dynamic_storage_field"
  | .invalidFrameworkType => "invalid_framework_type"
  | .notFound => "not_found"
  | .duplicate => "duplicate"
  | .hashCollision => "hash_collision"
  | .invalidInput => "invalid_input"
  | .outOfBounds => "out_of_bounds"
  | .overflow => "overflow"
  | .unsupported => "unsupported"
  | .internal => "internal"
  | .instantiation => "instantiation"

inductive Cause where
  | plain (text : String)
  | hex (fault : Text.Hex.Fault)
  | trap (t : Wasm.Trap)
  | file (text : String)
  | document (text : String)
  /-- The engine that runs modules refused one, or refused a call. -/
  | engine (text : String)
  deriving DecidableEq, Repr

def Cause.message : Cause → String
  | .plain text => text
  | .hex fault => fault.message
  | .trap t => "wasm error: " ++ t.message
  | .file text => text
  | .document text => text
  | .engine text => text

/-- A report; the phase or the kind may be left open, which matters when a report is a pattern. -/
structure Report where
  phase : Option Phase := none
  kind : Option ErrorKind := none
  path : List String := []
  subject : String := ""
  detail : String := ""
  deriving DecidableEq, Repr

namespace Report

/-- `[phase] kind at path: type T - detail`, each part only where it is given. -/
def message (r : Report) : String :=
  "[" ++ (r.phase.map Phase.name).getD "" ++ "] " ++ (r.kind.map ErrorKind.name).getD "" ++
    (if r.path.isEmpty then "" else " at " ++ ".".intercalate r.path) ++
    (if r.subject = "" then "" else ": type " ++ r.subject) ++
    (if r.detail = "" then "" else (if r.subject = "" then ": " else " - ") ++ r.detail)

/-- A pattern that leaves the phase open fits every phase. -/
def fits (r pattern : Report) : Bool :=
  (pattern.phase.isNone || r.phase == pattern.phase) && r.kind == pattern.kind

end Report

inductive Error where
  | outside (c : Cause)
  | report (r : Report)
  | wrapped (r : Report) (cause : Error)
  deriving DecidableEq, Repr

namespace Error

def messageBy (wording : Cause → Option String) : Error → String
  | .outside c => (wording c).getD ""
  | .report r => r.message
  | .wrapped r (.outside c) =>
    match wording c with
    | some text => r.message ++ " (caused by: " ++ text ++ ")"
    | none => r.message
  | .wrapped r cause => r.message ++ " (caused by: " ++ messageBy wording cause ++ ")"

def message (e : Error) : String := e.messageBy fun c => some c.message

def report? : Error → Option Report
  | .outside _ => none
  | .report r | .wrapped r _ => some r

def cause? : Error → Option Error
  | .wrapped _ cause => some cause
  | _ => none

def kind? (e : Error) : Option ErrorKind := e.report?.bind (·.kind)

def prepend (step : String) : Error → Error
  | .outside c => .outside c
  | .report r => .report { r with path := step :: r.path }
  | .wrapped r cause => .wrapped { r with path := step :: r.path } cause

def fits : Error → (target : Error) → Bool
  | .outside c, target => target == .outside c
  | .report r, target => (target.report?.map r.fits).getD false
  | .wrapped r cause, target => (target.report?.map r.fits).getD false || fits cause target

variable (phase : Phase)

def typeParameter (path : List String) (index : Nat) : Error :=
  .report { phase, kind := some .foundTypeParameter, path, subject := "T" ++ toString index,
            detail := "type parameter must be substituted before code generation" }

def signerFound (path : List String) : Error :=
  .report { phase, kind := some .foundSigner, path, subject := "signer",
            detail := "signer has no wire representation" }

def referenceFound (path : List String) (typeName : String) : Error :=
  .report { phase, kind := some .foundReference, path, subject := typeName,
            detail := "references must be dereferenced before encoding" }

def refInsideRef (path : List String) (typeName : String) : Error :=
  .report { phase, kind := some .refInsideRef, path, subject := typeName }

def enumNotSimple (path : List String) (enumName : String) : Error :=
  .report { phase, kind := some .enumNotSimple, path, subject := enumName,
            detail := "only enums without variant fields can be encoded" }

def missingIdentity (structName : String) : Error :=
  .report { phase, kind := some .missingIdentity, subject := structName,
            detail := "first field of a persistent object must be a UID" }

def notFound (what name : String) : Error :=
  .report { phase, kind := some .notFound,
            detail := what ++ " " ++ Text.quote name ++ " not found" }

def unsupported (typeName what : String) : Error :=
  .report { phase, kind := some .unsupported, subject := typeName, detail := what }

def outOfBounds (path : List String) (index length : Int) : Error :=
  .report { phase, kind := some .outOfBounds, path,
            detail := "index " ++ toString index ++ " out of bounds (length " ++ toString length ++
              ")" }

def internal (detail : String) : Error :=
  .report { phase, kind := some .internal, detail }

def invalidInput (subject detail : String) : Error :=
  .report { phase, kind := some .invalidInput, subject, detail }

def duplicate (subject detail : String) : Error :=
  .report { phase, kind := some .duplicate, subject, detail }

end Error

/-- Prepends a step to the path of a failure. -/
@[inline] def within {α : Type} (step : String) : Except Error α → Except Error α :=
  Except.mapError (Error.prepend step)

end MoveCodec
