import MiniC.Dict
import MiniC.Span
import MiniC.Ty.Basic

/-! # Symbols and scopes

A scope binds names to symbols, one symbol a name. Scopes nest in a `ScopeChain`; the outermost is
the file scope, which is never left. -/

namespace MiniC

inductive SymbolKind where
  | var
  | func
  deriving DecidableEq, Repr

/-- A bound name. A variable is always defined, a function once its body has been seen. The span
is that of the identifier that introduced the name. -/
structure Symbol where
  name : String
  kind : SymbolKind
  ty : Ty
  defined : Bool
  span : Span
  deriving DecidableEq, Repr

namespace Symbol

def ofVariable (name : String) (ty : Ty) (span : Span) : Symbol := ⟨name, .var, ty, true, span⟩

def ofFunction (name : String) (ty : Ty) (defined : Bool) (span : Span) : Symbol :=
  ⟨name, .func, ty, defined, span⟩

end Symbol

structure Scope where
  symbols : Dict Symbol
  deriving DecidableEq, Repr

namespace Scope

def empty : Scope := ⟨.empty⟩

def get? (s : Scope) (name : String) : Option Symbol := s.symbols.get? name

/-- Changes the symbol bound to `name`, if there is one. -/
def update (s : Scope) (name : String) (f : Symbol → Symbol) : Scope := ⟨s.symbols.modify name f⟩

/-- Binds a symbol to its name, in place of an earlier one of that name. -/
def bind (s : Scope) (x : Symbol) : Scope := ⟨s.symbols.insert x.name x⟩

theorem get?_empty (name : String) : empty.get? name = none := rfl

/-- A change is seen at its name only. -/
theorem get?_update (s : Scope) (name n : String) (f : Symbol → Symbol) :
    (s.update name f).get? n = if name = n then (s.get? n).map f else s.get? n :=
  s.symbols.get?_modify name n f

/-- Binding a symbol is seen at its name only. -/
theorem get?_bind (s : Scope) (x : Symbol) (n : String) :
    (s.bind x).get? n = if x.name = n then some x else s.get? n :=
  s.symbols.get?_insert x.name n x

end Scope

/-- The file scope and the scopes opened inside it, innermost first. -/
structure ScopeChain where
  file : Scope
  inner : List Scope
  deriving DecidableEq, Repr

namespace ScopeChain

/-- An empty file scope. -/
def empty : ScopeChain := ⟨.empty, []⟩

/-- The number of scopes around the current one. -/
def depth (t : ScopeChain) : Nat := t.inner.length

def atFile (t : ScopeChain) : Bool := t.inner.isEmpty

/-- Opens an empty scope. -/
def push (t : ScopeChain) : ScopeChain := { t with inner := .empty :: t.inner }

/-- Closes the current scope with its bindings; the file scope cannot be closed. -/
def pop? (t : ScopeChain) : Option ScopeChain :=
  match t.inner with
  | [] => none
  | _ :: outer => some { t with inner := outer }

/-- The innermost scope. -/
def current (t : ScopeChain) : Scope := t.inner.headD t.file

/-- Binds a symbol in the current scope. -/
def bind (t : ScopeChain) (x : Symbol) : ScopeChain :=
  match t.inner with
  | [] => { t with file := t.file.bind x }
  | s :: outer => { t with inner := s.bind x :: outer }

/-- Binds a symbol in the file scope. -/
def bindFile (t : ScopeChain) (x : Symbol) : ScopeChain := { t with file := t.file.bind x }

/-- Changes the symbol that the file scope binds to `name`, if there is one. -/
def updateFile (t : ScopeChain) (name : String) (f : Symbol → Symbol) : ScopeChain :=
  { t with file := t.file.update name f }

/-- The symbol of `name` in the innermost scope that binds it. -/
def find? (t : ScopeChain) (name : String) : Option Symbol :=
  (t.inner ++ [t.file]).findSome? (·.get? name)

def findHere? (t : ScopeChain) (name : String) : Option Symbol := t.current.get? name

def findFile? (t : ScopeChain) (name : String) : Option Symbol := t.file.get? name

theorem depth_push (t : ScopeChain) : t.push.depth = t.depth + 1 := rfl

end ScopeChain

end MiniC
