import MiniC.SemanticError
import MiniC.Ty.Basic

/-! # What happens during an analysis

The analysis tells what it does as a list of events. The errors of a run are those of its
`reported` events, in order; all events together make its trace. -/

namespace MiniC

inductive Event where
  | tagDeclared (tag : String)
  | tagDefined (tag : String)
  | entered (depth : Nat)
  | exited (depth : Nat)
  | resolved (name : String) (ty : Ty)
  | globalBound (name : String) (ty : Ty)
  | localBound (name : String) (ty : Ty) (depth : Nat)
  | functionBound (name : String) (ty : Ty) (hasBody : Bool)
  | functionDefined (name : String) (ty : Ty)
  | globalCompleted (name : String) (ty : Ty)
  | reported (error : SemanticError)
  deriving DecidableEq, Repr

namespace Event

/-- How much detail a line of the trace belongs to, or that it is a reported error. -/
inductive Level where
  | debug
  | trace
  | report
  deriving DecidableEq, Repr

def text : Event → String
  | .tagDeclared tag => "forward-declare struct " ++ tag
  | .tagDefined tag => "define struct " ++ tag
  | .entered depth => "enter scope (depth " ++ depth.repr ++ ")"
  | .exited depth => "exit scope (depth " ++ depth.repr ++ ")"
  | .resolved name ty => "resolved " ++ name ++ ": " ++ ty.spelling
  | .globalBound name ty => "global variable " ++ name ++ ": " ++ ty.spelling
  | .localBound name ty depth =>
    "local variable " ++ name ++ ": " ++ ty.spelling ++ " (depth " ++ depth.repr ++ ")"
  | .functionBound name ty hasBody =>
    "function " ++ name ++ ": " ++ ty.spelling ++ " (body: " ++
      (if hasBody then "true" else "false") ++ ")"
  | .functionDefined name ty =>
    "function " ++ name ++ " defined after declaration: " ++ ty.spelling
  | .globalCompleted name ty => "deferred global " ++ name ++ " completed: " ++ ty.spelling
  | .reported error => error.message

/-- The lines of the trace for one event. A reported error is noted before it is reported. -/
def lines (e : Event) : List (Level × String) :=
  match e with
  | .resolved _ _ => [(.trace, e.text)]
  | .reported _ => [(.debug, e.text), (.report, e.text)]
  | _ => [(.debug, e.text)]

def error? : Event → Option SemanticError
  | .reported error => some error
  | _ => none

/-- The errors among some events, in order. -/
def errors (events : List Event) : List SemanticError := events.filterMap error?

end Event

end MiniC
