import MiniC.Syntax.Basic

/-! # Semantic errors

An error says what is wrong with an identifier. It never ends the analysis. -/

namespace MiniC

namespace SemanticError

inductive Kind where
  | redeclaration
  | redefinition
  | undeclaredUse
  | incompleteType
  deriving DecidableEq, Repr

namespace Kind

/-- The code that reports give an error of this kind. -/
def code : Kind → String
  | .redeclaration => "E0001"
  | .redefinition => "E0002"
  | .undeclaredUse => "E0003"
  | .incompleteType => "E0004"

/-- The name of the kind in reports. -/
def label : Kind → String
  | .redeclaration => "Redeclaration"
  | .redefinition => "Redefinition"
  | .undeclaredUse => "UndeclaredUse"
  | .incompleteType => "IncompleteTypeDefinition"

/-- The kind with the given name. -/
def ofLabel? (text : String) : Option Kind :=
  [redeclaration, redefinition, undeclaredUse, incompleteType].find? (·.label == text)

/-- The words that lead to the identifier in a message. -/
def phrase : Kind → String
  | .redeclaration => "Redeclaration of"
  | .redefinition => "Redefinition of"
  | .undeclaredUse => "Undeclared use of"
  | .incompleteType => "Definition of incomplete type for"

end Kind

end SemanticError

structure SemanticError where
  kind : SemanticError.Kind
  name : String
  span : Span
  deriving DecidableEq, Repr

namespace SemanticError

/-- The error of this kind at an identifier. -/
def atIdent (kind : Kind) (id : Ident) : SemanticError := ⟨kind, id.name, id.span⟩

def message (e : SemanticError) : String :=
  "Error at line " ++ e.span.line.repr ++ ": " ++ e.kind.phrase ++ " '" ++ e.name ++ "'"

end SemanticError

end MiniC
