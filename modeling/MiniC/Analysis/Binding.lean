import MiniC.Analysis.Check

/-! # Binding names

Every name that enters a scope goes through here. A name that cannot be bound is reported and
dropped, and the scope stays as it was. -/

namespace MiniC

/-- What becomes of a name that occurs at file scope: it is new, it is a declared function that
gets its body, or it clashes. -/
inductive Verdict where
  | fresh
  | completes
  | clash (kind : SemanticError.Kind)
  deriving DecidableEq, Repr

/-- Judges an occurrence at file scope against the kind and the defined state of the symbol that
has the name already. A variable always defines, a function if it has a body. -/
def Verdict.judge : Option (SymbolKind × Bool) → SymbolKind → Bool → Verdict
  | none, _, _ => .fresh
  | some (.var, _), .var, _ => .clash .redefinition
  | some (.func, _), .var, _ => .clash .redeclaration
  | some (.var, _), .func, defining =>
    .clash (if defining then .redefinition else .redeclaration)
  | some (.func, _), .func, false => .clash .redeclaration
  | some (.func, true), .func, true => .clash .redefinition
  | some (.func, false), .func, true => .completes

/-- The names with `name` among them, which comes last if it is new. -/
def recordName (names : List String) (name : String) : List String :=
  if names.contains name then names else names ++ [name]

namespace Check

/-- Records a name that the file scope binds. -/
def recordGlobal (name : String) : Check Unit :=
  update fun s => { s with globals := recordName s.globals name }

/-- How an occurrence of `name` at file scope is judged in the present state. -/
def judge (name : String) (kind : SymbolKind) (defining : Bool) : Check Verdict := do
  let existing := (← state).scopes.findFile? name
  return Verdict.judge (existing.map fun x => (x.kind, x.defined)) kind defining

/-- Binds a variable at file scope. One whose struct type is incomplete so far waits for the end
of the program. -/
def bindGlobal (id : Ident) (ty : Ty) : Check Unit := do
  match ← judge id.name .var true with
  | .clash kind => report kind id
  | _ =>
    tell (.globalBound id.name ty)
    update fun s => { s with
      pending := if s.structs.isIncomplete ty then s.pending ++ [⟨id, ty⟩] else s.pending
      scopes := s.scopes.bindFile (.ofVariable id.name ty id.span) }
    recordGlobal id.name

/-- Binds a variable in an inner scope, where only a name of the same scope clashes. -/
def bindLocal (id : Ident) (ty : Ty) : Check Unit := do
  let s ← state
  if (s.scopes.findHere? id.name).isSome then report .redefinition id
  else
    tell (.localBound id.name ty s.scopes.depth)
    update fun s => { s with scopes := s.scopes.bind (.ofVariable id.name ty id.span) }

/-- Binds a variable or parameter in the current scope. An incomplete type is accepted at file
scope only, and there not as the element type of an array. -/
def bindVariable (id : Ident) (ty : Ty) : Check Unit := do
  let s ← state
  if s.structs.isIncomplete ty && (ty.isArray || !s.scopes.atFile) then
    report .incompleteType id
  else if s.scopes.atFile then bindGlobal id ty
  else bindLocal id ty

/-- Binds parameters in order. -/
def bindParams : List TypedIdent → Check Unit
  | [] => return
  | p :: more => do
    bindVariable p.ident p.ty
    bindParams more

/-- Binds a function at file scope; a body completes an earlier declaration, which then takes the
type given with the body. -/
def bindFunction (id : Ident) (ty : Ty) (hasBody : Bool) : Check Unit := do
  match ← judge id.name .func hasBody with
  | .fresh =>
    tell (.functionBound id.name ty hasBody)
    update fun s =>
      { s with scopes := s.scopes.bindFile (.ofFunction id.name ty hasBody id.span) }
    recordGlobal id.name
  | .completes =>
    tell (.functionDefined id.name ty)
    update fun s =>
      { s with scopes := s.scopes.updateFile id.name fun x => { x with ty := ty, defined := true } }
  | .clash kind => report kind id

end Check

/-- The first identifier whose name is in `seen` or repeats an earlier one. -/
def firstRepeated? (seen : List String) : List Ident → Option Ident
  | [] => none
  | id :: more => if seen.contains id.name then some id else firstRepeated? (id.name :: seen) more

namespace Check

/-- Reports the first parameter of a declaration without body that repeats a name. -/
def checkParams (params : List TypedIdent) : Check Unit :=
  match firstRepeated? [] (params.map (·.ident)) with
  | some id => report .redefinition id
  | none => return

/-- A name in an expression has to be bound in some scope around it. -/
def checkName (id : Ident) : Check Unit := do
  if ((← state).scopes.find? id.name).isNone then report .undeclaredUse id

end Check

end MiniC
