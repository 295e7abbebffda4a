import MiniC.Json.Parser
import MiniC.Report.Basic

/-! # Reports as JSON text

A record is written as an object with its fields in order. It is read from an object that holds each
of its fields once, in any order, among others that are passed over, or from the list of its field
values. The kind of an error is written as its name, and also read from an object with the name as
only key and nothing as its value. Lines and columns are naturals below 2^64. -/

namespace MiniC

namespace Json

/-- The values of the fields `names` of a record. -/
def fields? (names : List String) : Json → Option (List Json)
  | .list items => if items.length = names.length then some items else none
  | .object members => names.mapM fun name =>
    match members.filter (·.1 == name) with
    | [(_, value)] => some value
    | _ => none
  | _ => none

def bool? : Json → Option Bool
  | .bool b => some b
  | _ => none

def string? : Json → Option String
  | .string s => some s
  | _ => none

/-- A natural number below 2^64. -/
def word? : Json → Option Nat
  | .nat n => if n < 18446744073709551616 then some n else none
  | _ => none

/-- A list, each entry read by `f`. -/
def list? (f : Json → Option α) : Json → Option (List α)
  | .list items => items.mapM f
  | _ => none

end Json

namespace SemanticError.Kind

def toJson (k : Kind) : Json := .string k.label

def ofJson? : Json → Option Kind
  | .string s => ofLabel? s
  | .object [(key, .null)] => ofLabel? key
  | _ => none

end SemanticError.Kind

namespace Position

def toJson (l : Position) : Json := .object [("line", .nat l.line), ("column", .nat l.column)]

def ofJson? (j : Json) : Option Position := do
  match ← j.fields? ["line", "column"] with
  | [line, column] => return ⟨← line.word?, ← column.word?⟩
  | _ => none

end Position

namespace Diagnostic

def toJson (d : Diagnostic) : Json :=
  .object [("code", .string d.code), ("kind", d.kind.toJson), ("message", .string d.message),
    ("name", .string d.name), ("location", d.location.toJson)]

def ofJson? (j : Json) : Option Diagnostic := do
  match ← j.fields? ["code", "kind", "message", "name", "location"] with
  | [code, kind, message, name, location] =>
    return ⟨← code.string?, ← SemanticError.Kind.ofJson? kind, ← message.string?, ← name.string?,
      ← Position.ofJson? location⟩
  | _ => none

end Diagnostic

namespace NamedType

def toJson (e : NamedType) : Json :=
  .object [("name", .string e.name), ("type", .string e.type), ("location", e.location.toJson)]

def ofJson? (j : Json) : Option NamedType := do
  match ← j.fields? ["name", "type", "location"] with
  | [name, type, location] => return ⟨← name.string?, ← type.string?, ← Position.ofJson? location⟩
  | _ => none

end NamedType

namespace TagLayout

def toJson (e : TagLayout) : Json :=
  .object [("tag", .string e.tag), ("complete", .bool e.complete), ("layout", .string e.layout)]

def ofJson? (j : Json) : Option TagLayout := do
  match ← j.fields? ["tag", "complete", "layout"] with
  | [tag, complete, layout] => return ⟨← tag.string?, ← complete.bool?, ← layout.string?⟩
  | _ => none

end TagLayout

namespace Report

def toJson (r : Report) : Json :=
  .object [("success", .bool r.success), ("source_file", .string r.sourceFile),
    ("diagnostics", .list (r.diagnostics.map Diagnostic.toJson)),
    ("variables", .list (r.globals.map NamedType.toJson)),
    ("functions", .list (r.functions.map NamedType.toJson)),
    ("structs", .list (r.structs.map TagLayout.toJson))]

def ofJson? (j : Json) : Option Report := do
  match ← j.fields? ["success", "source_file", "diagnostics", "variables", "functions",
      "structs"] with
  | [success, sourceFile, diagnostics, globals, functions, structs] =>
    return ⟨← success.bool?, ← sourceFile.string?, ← diagnostics.list? Diagnostic.ofJson?,
      ← globals.list? NamedType.ofJson?, ← functions.list? NamedType.ofJson?,
      ← structs.list? TagLayout.ofJson?⟩
  | _ => none

/-- The indented JSON text of a report. -/
def text (r : Report) : String := r.toJson.pretty

/-- The report that a JSON text writes. -/
def read? (text : String) : Option Report := Json.parse? text >>= ofJson?

end Report

end MiniC
