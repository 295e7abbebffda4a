import MiniC.Proofs.Resolution

/-!
# What walking a function body changes

An expression changes nothing, and what it reports is one error for each of its names that no scope
binds (`Expr.check_apply`). A statement works in the innermost scope: the file scope, the scopes
further out and the waiting globals stay as they are (`Check.Walks`). A block closes the scope that
it opened, so nothing of it is left in the scopes at all (`Check.scoped_walks`).
-/

namespace MiniC

/-! ## Expressions -/

mutual

/-- The names that an expression refers to, from left to right. Member names are not among them. -/
def Expr.names : Expr → List Ident
  | .literal _ _ => []
  | .name id => [id]
  | .binary _ left right _ => left.names ++ right.names
  | .unary _ operand _ => operand.names
  | .call callee args _ => callee.names ++ exprNames args
  | .index base offset _ => base.names ++ offset.names
  | .member base _ _ _ => base.names

def exprNames : List Expr → List Ident
  | [] => []
  | e :: more => e.names ++ exprNames more

end

/-- The names of an expression that may be left out. -/
def optionNames : Option Expr → List Ident
  | some e => e.names
  | none => []

/-- The errors about those of some names that no scope binds. -/
def State.unbound (s : State) (ids : List Ident) : List SemanticError :=
  (ids.filter fun id => (s.scopes.find? id.name).isNone).map (.atIdent .undeclaredUse)

theorem State.unbound_append (s : State) (ids jds : List Ident) :
    s.unbound (ids ++ jds) = s.unbound ids ++ s.unbound jds := by
  simp only [State.unbound, List.filter_append, List.map_append]

/-- The outcome of a step that only looks at names. -/
def State.looked (s : State) (ids : List Ident) : Outcome Unit :=
  ⟨(), s, (s.unbound ids).map .reported⟩

theorem State.undeclared_looked (s : State) (ids : List Ident) :
    Event.undeclared (s.looked ids).events = s.unbound ids := by
  rw [State.looked, Event.undeclared, Event.errors_map_reported, List.filter_eq_self, State.unbound]
  intro e he
  obtain ⟨id, -, rfl⟩ := List.mem_map.1 he
  rfl

theorem Check.bind_looked {m n : Check Unit} {s : State} {ids jds : List Ident}
    (hm : m s = s.looked ids) (hn : n s = s.looked jds) :
    (do m; n) s = s.looked (ids ++ jds) := by
  simp only [Check.bind_apply, hm, State.looked, hn, State.unbound_append, List.map_append]

theorem Check.checkName_apply (id : Ident) (s : State) : checkName id s = s.looked [id] := by
  by_cases h : (s.scopes.find? id.name).isNone = true
  · simp only [checkName, bind_apply, state, h, ↓reduceIte, State.looked, State.unbound,
      List.filter_cons, List.filter_nil, List.map_cons, List.map_nil]
    rfl
  · simp only [checkName, bind_apply, state, h, State.looked, State.unbound, List.filter_cons,
      List.filter_nil]
    rfl

mutual

theorem Expr.check_apply (s : State) : (e : Expr) → e.check s = s.looked e.names
  | .literal _ _ => rfl
  | .name id => Check.checkName_apply id s
  | .binary _ left right _ => Check.bind_looked (left.check_apply s) (right.check_apply s)
  | .unary _ operand _ => operand.check_apply s
  | .call callee args _ => Check.bind_looked (callee.check_apply s) (checkExprs_apply s args)
  | .index base offset _ => Check.bind_looked (base.check_apply s) (offset.check_apply s)
  | .member base _ _ _ => base.check_apply s

theorem checkExprs_apply (s : State) : (es : List Expr) → checkExprs es s = s.looked (exprNames es)
  | [] => rfl
  | e :: more => Check.bind_looked (e.check_apply s) (checkExprs_apply s more)

end

theorem checkOption_apply (s : State) :
    (e : Option Expr) → checkOption e s = s.looked (optionNames e)
  | some e => e.check_apply s
  | none => rfl

/-! ## Statements -/

/-- The outcome of a step from `s` that works inside the innermost scope and comes to a state that
knows the tags `after`. -/
structure Outcome.Walked (r : Outcome Unit) (s : State) (after : List String) : Prop where
  knows : r.state.structs.Knows after
  framed : r.state = { s with
    structs := r.state.structs
    scopes := ⟨s.scopes.file, r.state.scopes.inner⟩ }
  outer : r.state.scopes.inner.tail = s.scopes.inner.tail
  inside : r.state.scopes.inner ≠ []

theorem Outcome.Walked.file {r : Outcome Unit} {s : State} {after : List String}
    (h : r.Walked s after) : r.state.scopes.file = s.scopes.file := by
  rw [h.framed]

/-- Steps that change nothing but the struct tags and the inner scopes, one after the other. -/
theorem State.walked_trans {s t u : State}
    (h : t = { s with structs := t.structs, scopes := ⟨s.scopes.file, t.scopes.inner⟩ })
    (h' : u = { t with structs := u.structs, scopes := ⟨t.scopes.file, u.scopes.inner⟩ }) :
    u = { s with structs := u.structs, scopes := ⟨s.scopes.file, u.scopes.inner⟩ } :=
  h'.trans (by rw [h])

namespace Check

/-- The outcome from every state inside a function that knows the tags `known`. -/
def Walks (m : Check Unit) (known after : List String) : Prop :=
  ∀ s : State, s.structs.Knows known → s.scopes.inner ≠ [] → (m s).Walked s after

namespace Walks

variable {m n : Check Unit} {known between after : List String}

protected theorem pure : Walks (pure ()) known known :=
  fun _ hs hin => ⟨hs, rfl, rfl, hin⟩

protected theorem bind (hm : Walks m known between) (hn : Walks n between after) :
    Walks (do m; n) known after := by
  intro s hs hin
  have h := hm s hs hin
  have h' := hn _ h.knows h.inside
  exact ⟨h'.knows, State.walked_trans h.framed h'.framed, h'.outer.trans h.outer, h'.inside⟩

/-- A resolution and then a step that may use its value. -/
theorem resolve_bind {r : Check α} {f : α → Check Unit} {a : α}
    (hr : Resolves r known between (· = a)) (hf : Walks (f a) between after) :
    Walks (r >>= f) known after := by
  intro s hs hin
  have h := hr s hs
  have h' := hf _ h.knows (by rw [h.scopes]; exact hin)
  rw [bind_apply, h.value]
  refine ⟨h'.knows, State.walked_trans (h.framed.trans (by rw [h.scopes])) h'.framed, ?_, h'.inside⟩
  rw [h'.outer, h.scopes]

theorem of_looked {ids : List Ident} (h : ∀ s, m s = s.looked ids) : Walks m known known := by
  intro s hs hin
  rw [h s]
  exact ⟨hs, rfl, rfl, hin⟩

end Walks

theorem bindLocal_apply (id : Ident) (ty : Ty) (s : State) :
    bindLocal id ty s =
      if (s.scopes.findHere? id.name).isSome then
        ⟨(), s, [.reported (.atIdent .redefinition id)]⟩
      else ⟨(), { s with scopes := s.scopes.bind (.ofVariable id.name ty id.span) },
        [.localBound id.name ty s.scopes.depth]⟩ := by
  rw [bindLocal, state_bind_apply, ite_apply]
  rfl

theorem bindVariable_apply (id : Ident) (ty : Ty) (s : State) :
    bindVariable id ty s =
      if s.structs.isIncomplete ty && (ty.isArray || !s.scopes.atFile) then
        ⟨(), s, [.reported (.atIdent .incompleteType id)]⟩
      else if s.scopes.atFile then bindGlobal id ty s
      else bindLocal id ty s := by
  rw [bindVariable, state_bind_apply, ite_apply, ite_apply]
  rfl

/-- Inside a function, a variable is bound in the innermost scope `here` unless its type is
incomplete or the scope has its name. -/
theorem bindVariable_apply_inner {s : State} {here : Scope} {outer : List Scope}
    (hin : s.scopes.inner = here :: outer) (id : Ident) (ty : Ty) :
    bindVariable id ty s =
      if s.structs.isIncomplete ty then ⟨(), s, [.reported (.atIdent .incompleteType id)]⟩
      else if (here.get? id.name).isSome then ⟨(), s, [.reported (.atIdent .redefinition id)]⟩
      else ⟨(),
        { s with scopes := ⟨s.scopes.file, here.bind (.ofVariable id.name ty id.span) :: outer⟩ },
        [.localBound id.name ty s.scopes.depth]⟩ := by
  have hfile : s.scopes.atFile = false := by simp [ScopeChain.atFile, hin]
  have hhere : s.scopes.findHere? id.name = here.get? id.name := by
    simp [ScopeChain.findHere?, ScopeChain.current, hin]
  rw [bindVariable_apply, bindLocal_apply, hfile, hhere, ScopeChain.bind, hin]
  simp

theorem bindVariable_walks (id : Ident) (ty : Ty) (known : List String) :
    Walks (bindVariable id ty) known known := by
  intro s hs hin
  obtain ⟨here, outer, hin⟩ := List.exists_cons_of_ne_nil hin
  rw [bindVariable_apply_inner hin]
  split
  · exact ⟨hs, rfl, rfl, by simp [hin]⟩
  · split
    · exact ⟨hs, rfl, rfl, by simp [hin]⟩
    · exact ⟨hs, rfl, by simp [hin], by simp⟩

theorem bindParams_walks (params : List TypedIdent) (known : List String) :
    Walks (bindParams params) known known := by
  induction params with
  | nil => exact .pure
  | cons p params ih => exact (bindVariable_walks p.ident p.ty known).bind ih

/-- Closing the scope in which a walk took place gives back the scopes from before it was opened. -/
theorem pop?_of_walked {r : Outcome Unit} {s : State} {after : List String}
    (h : r.Walked { s with scopes := s.scopes.push } after) :
    r.state.scopes.pop? = some s.scopes := by
  obtain ⟨here, outer, hin⟩ := List.exists_cons_of_ne_nil h.inside
  have hout := h.outer
  rw [hin] at hout
  simp only [ScopeChain.push, List.tail_cons] at hout
  rw [ScopeChain.pop?, hin, hout, h.file]
  rfl

/-- With the scopes from before, such a walk changes nothing but the struct tags. -/
theorem framed_of_walked {r : Outcome Unit} {s : State} {after : List String}
    (h : r.Walked { s with scopes := s.scopes.push } after) :
    ({ r.state with scopes := s.scopes } : State) = { s with structs := r.state.structs } := by
  rw [h.framed]

/-- What a walk comes to between opening and closing a scope: the scopes are those from before. -/
theorem scoped_apply {m : Check Unit} {s : State} {r : Outcome Unit} {after : List String}
    (hr : m { s with scopes := s.scopes.push } = r)
    (hw : r.Walked { s with scopes := s.scopes.push } after) :
    (do openScope; m; closeScope) s =
      ⟨(), { r.state with scopes := s.scopes },
        .entered (s.scopes.depth + 1) :: (r.events ++ [.exited s.scopes.depth])⟩ := by
  have hclose : closeScope r.state =
      ⟨(), { r.state with scopes := s.scopes }, [.exited s.scopes.depth]⟩ := by
    unfold closeScope
    simp only [bind_apply, state, pop?_of_walked hw]
    rfl
  have hopen : openScope s =
      ⟨(), { s with scopes := s.scopes.push }, [.entered (s.scopes.depth + 1)]⟩ := rfl
  simp only [bind_apply, hopen, hr, hclose, List.singleton_append]

theorem scoped_walks {m : Check Unit} {known after : List String} (hm : Walks m known after) :
    Walks (do openScope; m; closeScope) known after := by
  intro s hs hin
  have h := hm { s with scopes := s.scopes.push } hs (by simp [ScopeChain.push])
  rw [scoped_apply rfl h]
  exact ⟨h.knows, framed_of_walked h, rfl, hin⟩

end Check

mutual

/-- The specifiers that stand in a statement, in order. -/
def Stmt.specifiers : Stmt → List Specifier
  | .block stmts _ => stmtSpecifiers stmts
  | .varDecl decl _ _ => [decl.specifier]
  | .ifThen _ yes _ => yes.specifiers
  | .ifElse _ yes no _ => yes.specifiers ++ no.specifiers
  | .loop _ body _ => body.specifiers
  | .expr _ | .ret _ _ | .brk _ | .cont _ | .empty _ => []

def stmtSpecifiers : List Stmt → List Specifier
  | [] => []
  | stmt :: more => stmt.specifiers ++ stmtSpecifiers more

end

theorem completed_append (known : List String) (specs more : List Specifier) :
    completed known (specs ++ more) = completed (completed known specs) more :=
  List.foldl_append

open Check (Walks)

mutual

theorem Stmt.check_walks (known : List String) :
    (stmt : Stmt) → Walks stmt.check known (completed known stmt.specifiers)
  | .block stmts _ => Check.scoped_walks (checkStmts_walks known stmts)
  | .varDecl decl init _ => by
    rw [Stmt.check, Stmt.specifiers, completed_decl]
    refine .resolve_bind (decl.resolve_resolves known) ?_
    exact (Check.bindVariable_walks _ _ _).bind (.of_looked fun s => checkOption_apply s init)
  | .expr value => .of_looked fun s => value.check_apply s
  | .ret value _ => .of_looked fun s => checkOption_apply s value
  | .ifThen cond yes _ =>
    Walks.bind (.of_looked fun s => cond.check_apply s) (yes.check_walks known)
  | .ifElse cond yes no _ => by
    rw [Stmt.check, Stmt.specifiers, completed_append]
    refine Walks.bind (.of_looked fun s => cond.check_apply s) ?_
    exact (yes.check_walks known).bind (no.check_walks _)
  | .loop cond body _ =>
    Walks.bind (.of_looked fun s => cond.check_apply s) (body.check_walks known)
  | .brk _ | .cont _ | .empty _ => .pure

theorem checkStmts_walks (known : List String) :
    (stmts : List Stmt) → Walks (checkStmts stmts) known (completed known (stmtSpecifiers stmts))
  | [] => .pure
  | stmt :: more => by
    rw [checkStmts, stmtSpecifiers, completed_append]
    exact (stmt.check_walks known).bind (checkStmts_walks _ more)

end

end MiniC
