import MiniC.Proofs.Walking

/-!
# The three parts of checking an item

An item resolves its header, then binds its name at file scope, then walks its body if it has one
(`Item.check_eq`). The first and the last part leave everything but the struct tags alone, the
middle part leaves the struct tags alone. So every law about whole programs is a law about the
middle part, read in a state that knows the tags of the specifiers before it (`knows_stateAfter`).
-/

namespace MiniC

/-! ## Binding at file scope -/

namespace Check

/-- The kind and the defined state of what the file scope binds to a name. -/
def existing (s : State) (name : String) : Option (SymbolKind × Bool) :=
  (s.scopes.file.get? name).map fun x => (x.kind, x.defined)

theorem bindGlobal_apply (id : Ident) (ty : Ty) (s : State) :
    bindGlobal id ty s =
      match Verdict.judge (existing s id.name) .var true with
      | .clash kind => ⟨(), s, [.reported (.atIdent kind id)]⟩
      | _ => ⟨(),
          { s with
            pending := if s.structs.isIncomplete ty then s.pending ++ [⟨id, ty⟩] else s.pending
            scopes := s.scopes.bindFile (.ofVariable id.name ty id.span)
            globals := recordName s.globals id.name },
          [.globalBound id.name ty]⟩ := by
  have hjudge : judge id.name .var true s =
    ⟨Verdict.judge (existing s id.name) .var true, s, []⟩ := rfl
  simp only [bindGlobal, bind_apply, hjudge]
  cases Verdict.judge (existing s id.name) .var true <;> rfl

/-- A variable is bound at file scope if its name is new there. -/
theorem bindGlobal_of_none {id : Ident} {s : State} (h : s.scopes.file.get? id.name = none)
    (ty : Ty) :
    bindGlobal id ty s = ⟨(),
      { s with
        pending := if s.structs.isIncomplete ty then s.pending ++ [⟨id, ty⟩] else s.pending
        scopes := s.scopes.bindFile (.ofVariable id.name ty id.span)
        globals := recordName s.globals id.name },
      [.globalBound id.name ty]⟩ := by
  have hfresh : Verdict.judge (existing s id.name) .var true = .fresh := by
    simp [existing, h, Verdict.judge]
  rw [bindGlobal_apply, hfresh]

/-- A variable clashes with whatever has its name at file scope. -/
theorem bindGlobal_of_some {id : Ident} {s : State} {x : Symbol}
    (h : s.scopes.file.get? id.name = some x) (ty : Ty) :
    ∃ kind, bindGlobal id ty s = ⟨(), s, [.reported (.atIdent kind id)]⟩ := by
  obtain ⟨kind, hclash⟩ : ∃ kind, Verdict.judge (existing s id.name) .var true = .clash kind := by
    cases hkind : x.kind <;> simp [existing, h, hkind, Verdict.judge]
  exact ⟨kind, by rw [bindGlobal_apply, hclash]⟩

theorem bindFunction_apply (id : Ident) (ty : Ty) (hasBody : Bool) (s : State) :
    bindFunction id ty hasBody s =
      match Verdict.judge (existing s id.name) .func hasBody with
      | .fresh => ⟨(),
          { s with
            scopes := s.scopes.bindFile (.ofFunction id.name ty hasBody id.span)
            globals := recordName s.globals id.name },
          [.functionBound id.name ty hasBody]⟩
      | .completes => ⟨(),
          { s with
            scopes := s.scopes.updateFile id.name fun x => { x with ty := ty, defined := true } },
          [.functionDefined id.name ty]⟩
      | .clash kind => ⟨(), s, [.reported (.atIdent kind id)]⟩ := by
  have hjudge : judge id.name .func hasBody s =
    ⟨Verdict.judge (existing s id.name) .func hasBody, s, []⟩ := rfl
  simp only [bindFunction, bind_apply, hjudge]
  cases Verdict.judge (existing s id.name) .func hasBody <;> rfl

/-- At file scope a variable is dropped only if its type is an array of an incomplete type. -/
theorem bindVariable_apply_file {s : State} (hin : s.scopes.inner = []) (id : Ident) (ty : Ty) :
    bindVariable id ty s =
      if s.structs.isIncomplete ty && ty.isArray then
        ⟨(), s, [.reported (.atIdent .incompleteType id)]⟩
      else bindGlobal id ty s := by
  have hfile : s.scopes.atFile = true := by simp [ScopeChain.atFile, hin]
  rw [bindVariable_apply, hfile]
  simp

/-- A step whose value is known does the same as if that value were given. -/
theorem bind_eq_of_value {m : Check α} {a : α} (h : ∀ s, (m s).value = a) (f : α → Check β) :
    m >>= f = (do let _ ← m; f a) := by
  funext s
  simp only [bind_apply, h]

theorem Resolves.value_eq {m : Check α} {a : α} {after : List String → List String}
    (h : ∀ known, Resolves m known (after known) (· = a)) (s : State) : (m s).value = a := by
  obtain ⟨known, hs⟩ := s.structs.exists_knows
  exact (h known s hs).value

end Check

/-! ## The parts -/

namespace Item

/-- Resolves the types of an item. The parameters of a function without body are compared with each
other here too, as nothing else looks at them. -/
def checkHeader : Item → Check Unit
  | .function sig _ => do let _ ← sig.resolve
  | .prototype sig => do
    let _ ← sig.resolve
    Check.checkParams (sig.params.map Decl.typed)
  | .global decl => do let _ ← decl.resolve
  | .tagOnly specifier => do let _ ← specifier.resolve

/-- Binds the name that an item declares. -/
def bindName : Item → Check Unit
  | .function sig _ => Check.bindFunction sig.name sig.ty true
  | .prototype sig => Check.bindFunction sig.name sig.ty false
  | .global decl => Check.bindVariable decl.core decl.ty
  | .tagOnly _ => return

/-- Walks the body of a function. -/
def walkBody : Item → Check Unit
  | .function sig body => checkBody (sig.params.map Decl.typed) body
  | .prototype _ | .global _ | .tagOnly _ => return

theorem check_eq (item : Item) :
    item.check = (do item.checkHeader; item.bindName; item.walkBody) := by
  cases item with
  | function sig body =>
    rw [check, Check.bind_eq_of_value (Check.Resolves.value_eq sig.resolve_resolves)]
    simp [checkHeader, bindName, walkBody]
  | prototype sig =>
    rw [check, Check.bind_eq_of_value (Check.Resolves.value_eq sig.resolve_resolves)]
    simp [checkHeader, bindName, walkBody]
  | global decl =>
    rw [check, Check.bind_eq_of_value (Check.Resolves.value_eq decl.resolve_resolves)]
    simp [checkHeader, bindName, walkBody, Decl.typed]
  | tagOnly specifier => simp [check, checkHeader, bindName, walkBody]

/-- The specifiers of the header, in order. -/
def headerSpecifiers : Item → List Specifier
  | .function sig _ | .prototype sig => sig.specifiers
  | .global decl => [decl.specifier]
  | .tagOnly specifier => [specifier]

/-- The specifiers of the body, in order. -/
def bodySpecifiers : Item → List Specifier
  | .function _ body => stmtSpecifiers body.stmts
  | .prototype _ | .global _ | .tagOnly _ => []

/-- The specifiers of an item in the order in which they are walked. Those in member lists belong
to the specifier around them. -/
def specifiers (item : Item) : List Specifier := item.headerSpecifiers ++ item.bodySpecifiers

end Item

/-! ## What each part changes -/

open Check (Resolves)

theorem Check.checkParams_resolves (params : List TypedIdent) (known : List String) :
    Resolves (checkParams params) known known (fun _ => True) := by
  unfold checkParams
  split
  · exact .report (by decide) _
  · exact .pure trivial

theorem Item.checkHeader_resolves (item : Item) (known : List String) :
    Resolves item.checkHeader known (completed known item.headerSpecifiers) (fun _ => True) := by
  cases item with
  | function sig _ => exact (sig.resolve_resolves known).bind fun _ _ => .pure trivial
  | prototype sig =>
    exact (sig.resolve_resolves known).bind fun _ _ => Check.checkParams_resolves _ _
  | global decl =>
    rw [headerSpecifiers, completed_decl]
    exact (decl.resolve_resolves known).bind fun _ _ => .pure trivial
  | tagOnly specifier => exact (specifier.resolve_resolves known).bind fun _ _ => .pure trivial

/-- A clash is about the names alone. -/
theorem Verdict.kind_ne_of_judge {existing : Option (SymbolKind × Bool)} {kind : SymbolKind}
    {defining : Bool} {error : SemanticError.Kind}
    (h : Verdict.judge existing kind defining = .clash error) :
    error ≠ .undeclaredUse ∧ error ≠ .incompleteType := by
  rcases existing with _ | ⟨_ | _, _ | _⟩ <;> cases kind <;> cases defining <;>
    simp [Verdict.judge] at h <;> subst h <;> decide

/-- Only a function that was declared and has no body is completed. -/
theorem Verdict.existing_of_judge {existing : Option (SymbolKind × Bool)} {kind : SymbolKind}
    {defining : Bool} (h : Verdict.judge existing kind defining = .completes) :
    existing = some (.func, false) := by
  rcases existing with _ | ⟨_ | _, _ | _⟩ <;> cases kind <;> cases defining <;>
    simp [Verdict.judge] at h ⊢

/-- The outcome of a step from a state `s` at file scope that changes nothing but what the file
scope binds, its names in order, and which globals wait. -/
structure Outcome.Named (r : Outcome Unit) (s : State) : Prop where
  structs : r.state.structs = s.structs
  inner : r.state.scopes.inner = s.scopes.inner
  undeclared : Event.undeclared r.events = []

theorem Check.bindGlobal_named (id : Ident) (ty : Ty) (s : State) :
    (bindGlobal id ty s).Named s := by
  rw [bindGlobal_apply]
  split
  · rename_i kind hjudge
    exact ⟨rfl, rfl, Event.undeclared_reported (Verdict.kind_ne_of_judge hjudge).1 id⟩
  · exact ⟨rfl, rfl, rfl⟩

theorem Check.bindFunction_named (id : Ident) (ty : Ty) (hasBody : Bool) (s : State) :
    (bindFunction id ty hasBody s).Named s := by
  rw [bindFunction_apply]
  split
  · exact ⟨rfl, rfl, rfl⟩
  · exact ⟨rfl, rfl, rfl⟩
  · rename_i kind hjudge
    exact ⟨rfl, rfl, Event.undeclared_reported (Verdict.kind_ne_of_judge hjudge).1 id⟩

theorem Item.bindName_named (item : Item) {s : State} (hin : s.scopes.inner = []) :
    (item.bindName s).Named s := by
  cases item with
  | function sig _ => exact Check.bindFunction_named sig.name sig.ty true s
  | prototype sig => exact Check.bindFunction_named sig.name sig.ty false s
  | global decl =>
    rw [bindName, Check.bindVariable_apply_file hin]
    split
    · exact ⟨rfl, rfl, Event.undeclared_reported (by decide) _⟩
    · exact Check.bindGlobal_named decl.core decl.ty s
  | tagOnly _ => exact ⟨rfl, rfl, rfl⟩

/-- The walk of a body, from the state in which its scope has just been opened. -/
theorem checkBody_walked (params : List TypedIdent) (body : Block) {s : State}
    {known : List String} (hs : s.structs.Knows known) :
    ((do Check.bindParams params; checkStmts body.stmts) { s with scopes := s.scopes.push }).Walked
      { s with scopes := s.scopes.push } (completed known (stmtSpecifiers body.stmts)) :=
  ((Check.bindParams_walks params known).bind (checkStmts_walks known body.stmts)) _ hs
    (by simp [ScopeChain.push])

theorem checkBody_eq (params : List TypedIdent) (body : Block) :
    checkBody params body = (do
      Check.openScope
      (do Check.bindParams params; checkStmts body.stmts)
      Check.closeScope) := by
  simp [checkBody]

theorem checkBody_apply (params : List TypedIdent) (body : Block) {s : State}
    {known : List String} (hs : s.structs.Knows known) :
    checkBody params body s =
      let r :=
        (do Check.bindParams params; checkStmts body.stmts) { s with scopes := s.scopes.push }
      ⟨(), { r.state with scopes := s.scopes },
        .entered (s.scopes.depth + 1) :: (r.events ++ [.exited s.scopes.depth])⟩ := by
  rw [← Check.scoped_apply rfl (checkBody_walked params body hs), checkBody_eq]

theorem Item.walkBody_state (item : Item) {s : State} {known : List String}
    (hs : s.structs.Knows known) :
    (item.walkBody s).state.structs.Knows (completed known item.bodySpecifiers) ∧
      (item.walkBody s).state = { s with structs := (item.walkBody s).state.structs } := by
  cases item with
  | function sig body =>
    have h := checkBody_walked (sig.params.map Decl.typed) body hs
    rw [walkBody, checkBody_apply _ body hs]
    exact ⟨h.knows, Check.framed_of_walked h⟩
  | _ => exact ⟨hs, rfl⟩

/-! ## Whole programs -/

namespace Item

/-- The state after the header of an item. -/
def headerState (item : Item) (s : State) : State := (item.checkHeader s).state

/-- The state after the name of an item has been bound. -/
def namedState (item : Item) (s : State) : State := (item.bindName (item.headerState s)).state

/-- How the states before, inside and after an item at file scope are related. -/
structure Checked (item : Item) (s : State) (known : List String) : Prop where
  header : item.headerState s = { s with structs := (item.headerState s).structs }
  header_knows : (item.headerState s).structs.Knows (completed known item.headerSpecifiers)
  named_structs : (item.namedState s).structs = (item.headerState s).structs
  named_inner : (item.namedState s).scopes.inner = []
  body : (item.check s).state = { item.namedState s with structs := (item.check s).state.structs }
  knows : (item.check s).state.structs.Knows (completed known item.specifiers)

namespace Checked

variable {item : Item} {s : State} {known : List String} (h : item.Checked s known)

include h

theorem header_scopes : (item.headerState s).scopes = s.scopes := by rw [h.header]

theorem header_globals : (item.headerState s).globals = s.globals := by rw [h.header]

theorem header_pending : (item.headerState s).pending = s.pending := by rw [h.header]

theorem scopes : (item.check s).state.scopes = (item.namedState s).scopes := by rw [h.body]

theorem globals : (item.check s).state.globals = (item.namedState s).globals := by rw [h.body]

theorem pending : (item.check s).state.pending = (item.namedState s).pending := by rw [h.body]

theorem header_symbols : (item.headerState s).symbols = s.symbols := by
  rw [State.symbols, h.header_scopes, h.header_globals, State.symbols]

theorem symbols : (item.check s).state.symbols = (item.namedState s).symbols := by
  rw [State.symbols, h.scopes, h.globals, State.symbols]

end Checked

theorem checked (item : Item) {s : State} {known : List String} (hs : s.structs.Knows known)
    (hin : s.scopes.inner = []) : item.Checked s known := by
  have hheader := item.checkHeader_resolves known s hs
  have hin' : (item.headerState s).scopes.inner = [] := by rw [headerState, hheader.scopes, hin]
  have hnamed := item.bindName_named hin'
  have hknows : (item.namedState s).structs.Knows (completed known item.headerSpecifiers) := by
    rw [namedState, hnamed.structs]
    exact hheader.knows
  obtain ⟨hbody, hframed⟩ := item.walkBody_state hknows
  have hstate : (item.check s).state = (item.walkBody (item.namedState s)).state := by
    rw [check_eq]
    rfl
  rw [← completed_append] at hbody
  rw [← hstate] at hbody hframed
  exact ⟨hheader.framed, hheader.knows, hnamed.structs, hnamed.inner.trans hin', hframed, hbody⟩

end Item

theorem checkItems_append (items more : List Item) :
    checkItems (items ++ more) = (do checkItems items; checkItems more) := by
  induction items with
  | nil => simp [checkItems]
  | cons item items ih => simp [checkItems, ih]

/-- The state after some items of a program have been checked. -/
def stateAfter (items : List Item) : State := (checkItems items .initial).state

theorem stateAfter_concat (before : List Item) (item : Item) :
    stateAfter (before ++ [item]) = (item.check (stateAfter before)).state := by
  rw [stateAfter, checkItems_append]
  rfl

/-- The tags that the specifiers of some items complete. -/
def tagsAfter (items : List Item) : List String := completed [] (items.flatMap Item.specifiers)

theorem tagsAfter_concat (before : List Item) (item : Item) :
    tagsAfter (before ++ [item]) = completed (tagsAfter before) item.specifiers := by
  rw [tagsAfter, List.flatMap_append, completed_append, List.flatMap_singleton, tagsAfter]

theorem checkItems_file (items : List Item) {s : State} {known : List String}
    (hs : s.structs.Knows known) (hin : s.scopes.inner = []) :
    (checkItems items s).state.structs.Knows (completed known (items.flatMap Item.specifiers)) ∧
      (checkItems items s).state.scopes.inner = [] := by
  induction items generalizing s known with
  | nil => exact ⟨hs, hin⟩
  | cons item items ih =>
    have h := item.checked hs hin
    rw [List.flatMap_cons, completed_append]
    exact ih h.knows (h.scopes ▸ h.named_inner)

/-- Between items, the struct tags are those that the specifiers so far complete. -/
theorem knows_stateAfter (items : List Item) :
    (stateAfter items).structs.Knows (tagsAfter items) :=
  (checkItems_file items StructTable.knows_empty rfl).1

theorem inner_stateAfter (items : List Item) : (stateAfter items).scopes.inner = [] :=
  (checkItems_file items StructTable.knows_empty rfl).2

theorem Item.checked_stateAfter (before : List Item) (item : Item) :
    item.Checked (stateAfter before) (tagsAfter before) :=
  item.checked (knows_stateAfter before) (inner_stateAfter before)

/-! ## The end of a program -/

/-- What is told of a global variable that has been waiting. -/
def State.settled (s : State) (d : TypedIdent) : Event :=
  if s.structs.isIncomplete d.ty then .reported (.atIdent .incompleteType d.ident)
  else .globalCompleted d.ident.name d.ty

theorem settle_apply (ds : List TypedIdent) (s : State) :
    settle ds s = ⟨(), s, ds.map s.settled⟩ := by
  induction ds with
  | nil => rfl
  | cons d ds ih =>
    rw [settle, Check.state_bind_apply, Check.ite_apply]
    split
    · rename_i h
      simp only [Check.bind_apply, Check.report, Check.tell, ih, List.map_cons, State.settled, h]
      rfl
    · rename_i h
      simp only [Check.bind_apply, Check.tell, ih, List.map_cons, State.settled, h]
      rfl

theorem settlePending_apply (s : State) :
    settlePending s = ⟨(), { s with pending := [] }, s.pending.map s.settled⟩ := by
  rw [settlePending, Check.state_bind_apply, Check.bind_apply, settle_apply]
  rfl

namespace Program

/-- The errors that are reported while the items are walked. -/
def immediate (p : Program) : List SemanticError :=
  Event.errors (checkItems p.items .initial).events

/-- The errors that are reported after the last item. -/
def deferred (p : Program) : List SemanticError :=
  Event.errors (settlePending (stateAfter p.items)).events

theorem errors_run (p : Program) : p.run.errors = p.immediate ++ p.deferred :=
  Event.errors_append _ _

theorem symbols_run (p : Program) : p.run.result.symbols = (stateAfter p.items).symbols := by
  rw [run, settlePending_apply]
  rfl

theorem structs_run (p : Program) : p.run.result.structs = (stateAfter p.items).structs := by
  rw [run, settlePending_apply]
  rfl

end Program

end MiniC
