import MiniC.Analysis.Walk

/-! # The analysis of a program

Its result is what the file scope binds and what is known of each struct tag, with the events of the
run. The errors of a run are those found while walking, followed by those of the global variables
whose type was never completed. -/

namespace MiniC

structure Analysis where
  symbols : List Symbol
  structs : StructTable
  deriving DecidableEq, Repr

namespace Analysis

/-- The file-scope symbol of `name`. -/
def symbol? (a : Analysis) (name : String) : Option Symbol := a.symbols.find? (·.name == name)

/-- The variables at file scope. -/
def globals (a : Analysis) : List Symbol := a.symbols.filter (·.kind == .var)

def functions (a : Analysis) : List Symbol := a.symbols.filter (·.kind == .func)

/-- The type of a symbol, with the members of a struct. -/
def typeText (a : Analysis) (x : Symbol) : String := a.structs.layout x.ty

/-- The line of a symbol in the summary. -/
def line (a : Analysis) (x : Symbol) : String := x.name ++ ": " ++ a.typeText x ++ "\n"

/-- Variables and functions with their types, one a line. -/
def summary (a : Analysis) : String :=
  "Variables:\n" ++ String.join (a.globals.map a.line) ++
    "\nFunctions:\n" ++ String.join (a.functions.map a.line)

end Analysis

/-- An analysis and the events on the way to it. -/
structure Run where
  result : Analysis
  events : List Event

/-- The errors of a run, in the order in which they were found. -/
def Run.errors (r : Run) : List SemanticError := Event.errors r.events

/-- What the file scope binds to the names that were recorded, in their order. -/
def State.symbols (s : State) : List Symbol := s.globals.filterMap s.scopes.findFile?

/-- Analyzes a program. -/
def Program.run (p : Program) : Run :=
  let walked := checkItems p.items .initial
  let settled := settlePending walked.state
  ⟨⟨settled.state.symbols, settled.state.structs⟩, walked.events ++ settled.events⟩

end MiniC
