import MiniC.Analysis.Basic

/-! # Reports

A report lists what an analysis found in one source file: its errors in order, the variables and
functions with their types, and the struct tags with their layouts. -/

namespace MiniC

/-- Where something stands in the source. -/
structure Position where
  line : Nat
  column : Nat
  deriving DecidableEq, Repr

def Position.ofSpan (s : Span) : Position := ⟨s.line, s.column⟩

/-- A semantic error with its code and message. -/
structure Diagnostic where
  code : String
  kind : SemanticError.Kind
  message : String
  name : String
  location : Position
  deriving DecidableEq, Repr

def Diagnostic.ofError (e : SemanticError) : Diagnostic :=
  ⟨e.kind.code, e.kind, e.message, e.name, .ofSpan e.span⟩

/-- A file-scope name with the text of its type. -/
structure NamedType where
  name : String
  type : String
  location : Position
  deriving DecidableEq, Repr

def NamedType.ofSymbol (a : Analysis) (x : Symbol) : NamedType :=
  ⟨x.name, a.typeText x, .ofSpan x.span⟩

/-- A struct tag with its layout. -/
structure TagLayout where
  tag : String
  complete : Bool
  layout : String
  deriving DecidableEq, Repr

def TagLayout.ofDef (d : StructDef) : TagLayout := ⟨d.tag, d.complete, d.layout⟩

structure Report where
  success : Bool
  sourceFile : String
  diagnostics : List Diagnostic
  globals : List NamedType
  functions : List NamedType
  structs : List TagLayout
  deriving DecidableEq, Repr

/-- The report on a run over `sourceFile`, a success if the run found no errors. -/
def Report.ofRun (sourceFile : String) (r : Run) : Report where
  success := r.errors.isEmpty
  sourceFile := sourceFile
  diagnostics := r.errors.map .ofError
  globals := r.result.globals.map (.ofSymbol r.result)
  functions := r.result.functions.map (.ofSymbol r.result)
  structs := r.result.structs.defs.map .ofDef

end MiniC
