import MoveCodec.Options

/-!
# Manifests

A manifest declares one package: its definitions, the public functions whose codecs are generated,
and how the module is built. Types are still written as expressions.
-/
namespace MoveCodec

namespace Manifest

structure PackageDecl where
  name : String := ""
  address : String := ""
  module : String := ""

/-- The build section; 0, an empty text and `none` stand for a setting that is not given. -/
structure BuildDecl where
  host : String := ""
  pages : UInt32 := 0
  maxPages : UInt32 := 0
  objectsSlot : UInt64 := 0
  exportAllocator : Option Bool := none
  output : String := ""

structure FieldDecl where
  name : String := ""
  type : String := ""

structure StructDecl where
  name : String := ""
  abilities : List String := []
  arity : Int := 0
  fields : List FieldDecl := []

structure VariantDecl where
  name : String := ""
  fields : List FieldDecl := []

/-- An enum: variants without fields by name, then variants that may carry fields. -/
structure EnumDecl where
  name : String := ""
  abilities : List String := []
  arity : Int := 0
  plain : List String := []
  variants : List VariantDecl := []

/-- An event whose first `indexed` fields are published as topics. -/
structure EventDecl where
  name : String := ""
  indexed : Int := 0
  fields : List FieldDecl := []

structure FunctionDecl where
  name : String := ""
  params : List String := []
  results : List String := []

end Manifest

open Manifest in
structure Manifest where
  package : PackageDecl := {}
  build : BuildDecl := {}
  structs : List StructDecl := []
  enums : List EnumDecl := []
  errors : List StructDecl := []
  events : List EventDecl := []
  functions : List FunctionDecl := []

namespace Manifest

/-- A package without an address stands at zero, and its module has its name. -/
def withDefaults (m : Manifest) : Manifest :=
  let p := m.package
  { m with package :=
    { p with
      address := if p.address = "" then "0x0" else p.address
      module := if p.module = "" then p.name else p.module } }

def options (m : Manifest) : Options :=
  let b := m.build
  let d : Options := {}
  { host := if b.host = "" then d.host else b.host
    pages := if b.pages = 0 then d.pages else b.pages
    maxPages := b.maxPages
    objectsSlot := b.objectsSlot
    exportAllocator := b.exportAllocator.getD d.exportAllocator }

end Manifest

end MoveCodec
