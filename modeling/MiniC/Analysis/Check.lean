import MiniC.Analysis.Event
import MiniC.Scope
import MiniC.Ty.StructTable

/-! # Checking steps

A checking step changes the state of the analysis and tells events. Events are not part of the
state: what a step does and tells depends only on the state it starts in, and `bind` puts the
events of two steps one after the other. -/

namespace MiniC

/-- A declared name with its type. -/
structure TypedIdent where
  ident : Ident
  ty : Ty
  deriving DecidableEq, Repr

/-- What the analysis knows at one point of the program: the scopes, the struct tags, the names
bound at file scope in the order in which they came, and the global variables whose struct type
still waits for its definition. -/
structure State where
  scopes : ScopeChain
  structs : StructTable
  globals : List String
  pending : List TypedIdent
  deriving DecidableEq, Repr

/-- Nothing declared yet. -/
def State.initial : State := ⟨.empty, .empty, [], []⟩

/-- What a checking step results in. -/
structure Outcome (α : Type) where
  value : α
  state : State
  events : List Event

def Check (α : Type) : Type := State → Outcome α

namespace Check

/-- Does nothing and gives `a`. -/
def value (a : α) : Check α := fun s => ⟨a, s, []⟩

/-- One step, then another that may use its value. -/
def andThen (m : Check α) (f : α → Check β) : Check β := fun s =>
  let r := m s
  let r' := f r.value r.state
  ⟨r'.value, r'.state, r.events ++ r'.events⟩

instance : Monad Check where
  pure := value
  bind := andThen

theorem pure_apply (a : α) (s : State) : (pure a : Check α) s = ⟨a, s, []⟩ := rfl

theorem bind_apply (m : Check α) (f : α → Check β) (s : State) :
    (m >>= f) s =
      ⟨(f (m s).value (m s).state).value, (f (m s).value (m s).state).state,
        (m s).events ++ (f (m s).value (m s).state).events⟩ := rfl

instance : LawfulMonad Check :=
  LawfulMonad.mk' _
    (fun m => by funext s; simp [Functor.map, andThen, value])
    (fun a f => by funext s; simp [bind_apply, pure_apply])
    (fun m f g => by funext s; simp [bind_apply, List.append_assoc])

/-- Gives the state. -/
def state : Check State := fun s => ⟨s, s, []⟩

/-- Changes the state. -/
def update (f : State → State) : Check Unit := fun s => ⟨(), f s, []⟩

/-- Tells an event. -/
def tell (e : Event) : Check Unit := fun s => ⟨(), s, [e]⟩

/-- Reports an error at an identifier. -/
def report (kind : SemanticError.Kind) (id : Ident) : Check Unit :=
  tell (.reported (.atIdent kind id))

/-! ## Struct tags -/

/-- Mentions a tag and gives its type. -/
def mentionTag (tag : String) : Check Ty := do
  let s ← state
  unless s.structs.mentions tag do
    update fun s => { s with structs := s.structs.mention tag }
    tell (.tagDeclared tag)
  return .struct tag

/-- Starts the definition of a tag that has been mentioned; false if it is defined already. -/
def defineTag (tag : String) : Check Bool := do
  let s ← state
  match s.structs.define? tag with
  | some structs =>
    update fun s => { s with structs := structs }
    tell (.tagDefined tag)
    return true
  | none => return false

/-- Sets the members of a tag. -/
def giveFields (tag : String) (fields : List Field) : Check Unit :=
  update fun s => { s with structs := s.structs.giveFields tag fields }

/-! ## Scopes -/

def openScope : Check Unit := do
  update fun s => { s with scopes := s.scopes.push }
  tell (.entered (← state).scopes.depth)

/-- Leaves the current scope. There is none to leave at file scope, and nothing happens there. -/
def closeScope : Check Unit := do
  match (← state).scopes.pop? with
  | some scopes =>
    update fun s => { s with scopes := scopes }
    tell (.exited scopes.depth)
  | none => return

end Check

end MiniC
