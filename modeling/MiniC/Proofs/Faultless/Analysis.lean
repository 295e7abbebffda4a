import MiniC.Proofs.Framing
import MiniC.Proofs.Faultless.Reading
import MiniC.Proofs.Faultless.Scanning
import MiniC.Report.Format

/-!
# From a source to its report without a fault

Here the walk reaches for its scopes by their positions in a stack, with the file scope at 0. It is
a fault if there is nothing at that position, if an empty stack is asked for its depth, or if the
file scope is closed. It does not come to that: the file scope is there from the start, and what
stands between the opening and the closing of a scope leaves the scopes around it as they were, so
there is always one to close. With the scanner and the readers by index, every step from a source to
its summary and its report has a form that can fault, and no source makes one of them fault
(`no_source_faults`).
-/

namespace MiniC

/-! ## Scopes by position -/

/-- The scopes by position, the file scope at 0 and the current one last. -/
def ScopeChain.stack (t : ScopeChain) : List Scope := t.file :: t.inner.reverse

namespace ScopeStack

/-- The chain of the scopes in a stack; none if there is no file scope. -/
def chain? : List Scope → Option ScopeChain
  | [] => none
  | file :: inner => some ⟨file, inner.reverse⟩

/-- The number of scopes less one; a fault if there is no scope. -/
def depth? (stack : List Scope) : Option Nat :=
  if 1 ≤ stack.length then some (stack.length - 1) else none

def push (stack : List Scope) : List Scope := stack ++ [.empty]

/-- Closing the file scope is a fault. -/
def pop? (stack : List Scope) : Option (List Scope) :=
  if 1 < stack.length then some stack.dropLast else none

def findFile? (stack : List Scope) (name : String) : Option (Option Symbol) :=
  stack[0]?.map (·.get? name)

def changeFile? (f : Scope → Scope) (stack : List Scope) : Option (List Scope) :=
  stack[0]?.map fun s => stack.set 0 (f s)

variable (t : ScopeChain)

theorem depth?_stack : depth? t.stack = some t.depth := by
  simp [depth?, ScopeChain.stack, ScopeChain.depth]

theorem chain?_push : chain? (push t.stack) = some t.push := by
  simp [chain?, push, ScopeChain.stack, ScopeChain.push]

theorem chain?_pop? : (pop? t.stack).bind chain? = t.pop? := by
  obtain ⟨file, _ | ⟨s, outer⟩⟩ := t
  · rfl
  · have hstack : ScopeChain.stack ⟨file, s :: outer⟩ = (file :: outer.reverse) ++ [s] := by
      simp [ScopeChain.stack]
    rw [hstack, pop?, if_pos (by simp), List.dropLast_concat, Option.bind_some, chain?,
      List.reverse_reverse]
    rfl

theorem chain?_changeFile? (f : Scope → Scope) :
    (changeFile? f t.stack).bind chain? = some { t with file := f t.file } := by
  simp [changeFile?, ScopeChain.stack, chain?]

theorem findFile?_stack (name : String) : findFile? t.stack name = some (t.findFile? name) := rfl

end ScopeStack

/-! ## Steps -/

/-- A checking step that can fault; none for a fault. -/
def FaultingCheck (α : Type) : Type := State → Option (Outcome α)

/-- The outcome where `events` were told before. -/
def Outcome.after (events : List Event) (r : Outcome α) : Outcome α :=
  ⟨r.value, r.state, events ++ r.events⟩

namespace FaultingCheck

instance : Monad FaultingCheck where
  pure a := fun s => some ⟨a, s, []⟩
  bind m f := fun s => (m s).bind fun r => (f r.value r.state).map (.after r.events)

/-- A step without a fault. -/
def lift (m : Check α) : FaultingCheck α := fun s => some (m s)

theorem bind_apply (m : FaultingCheck α) (f : α → FaultingCheck β) (s : State) :
    (m >>= f) s = (m s).bind fun r => (f r.value r.state).map (.after r.events) := rfl

theorem lift_bind_apply (m : Check α) (f : α → FaultingCheck β) (s : State) :
    (lift m >>= f) s = (f (m s).value (m s).state).map (.after (m s).events) := rfl

theorem lift_bind (m : Check α) (f : α → Check β) :
    lift (m >>= f) = lift m >>= fun a => lift (f a) := rfl

theorem lift_bind_bind (m : Check α) (f : α → Check β) (g : β → FaultingCheck γ) :
    lift (m >>= f) >>= g = lift m >>= fun a => lift (f a) >>= g := by
  funext s
  simp only [lift_bind_apply, Check.bind_apply, Option.map_map]
  congr 1
  funext r
  simp only [Function.comp, Outcome.after, List.append_assoc]

/-! ## Steps on the stack -/

/-- Changes the stack of scopes. -/
def onStack (f : List Scope → Option (List Scope)) : FaultingCheck Unit := fun s =>
  ((f s.scopes.stack).bind ScopeStack.chain?).map fun t => ⟨(), { s with scopes := t }, []⟩

/-- Gives the depth of the stack. -/
def depth : FaultingCheck Nat := fun s =>
  (ScopeStack.depth? s.scopes.stack).map fun d => ⟨d, s, []⟩

/-- Gives the symbol of `name` at file scope. -/
def findFile (name : String) : FaultingCheck (Option Symbol) := fun s =>
  (ScopeStack.findFile? s.scopes.stack name).map fun x => ⟨x, s, []⟩

def openScope : FaultingCheck Unit := do
  onStack fun stack => some (ScopeStack.push stack)
  lift (Check.tell (.entered (← depth)))

def closeScope : FaultingCheck Unit := do
  onStack ScopeStack.pop?
  lift (Check.tell (.exited (← depth)))

theorem onStack_changeFile (f : Scope → Scope) :
    onStack (ScopeStack.changeFile? f) = lift (Check.update fun s =>
      { s with scopes := { s.scopes with file := f s.scopes.file } }) := by
  funext s
  rw [onStack, ScopeStack.chain?_changeFile?]
  rfl

theorem depth_eq : depth = lift (do return (← Check.state).scopes.depth) := by
  funext s
  rw [depth, ScopeStack.depth?_stack]
  rfl

theorem findFile_eq (name : String) :
    findFile name = lift (do return (← Check.state).scopes.findFile? name) := by
  funext s
  rw [findFile, ScopeStack.findFile?_stack]
  rfl

theorem openScope_eq : openScope = lift Check.openScope := by
  have hpush : (onStack fun stack => some (ScopeStack.push stack)) =
      lift (Check.update fun s => { s with scopes := s.scopes.push }) := by
    funext s
    rw [onStack, Option.bind_some, ScopeStack.chain?_push]
    rfl
  rw [openScope, hpush, depth_eq]
  rfl

/-- A scope inside the file scope can be closed. -/
theorem closeScope_apply {s : State} (h : ¬ s.scopes.atFile = true) :
    closeScope s = lift Check.closeScope s := by
  obtain ⟨⟨file, _ | ⟨top, outer⟩⟩, structs, globals, pending⟩ := s
  · exact absurd rfl h
  · have hpop : onStack ScopeStack.pop? ⟨⟨file, top :: outer⟩, structs, globals, pending⟩ =
        some ⟨(), ⟨⟨file, outer⟩, structs, globals, pending⟩, []⟩ := by
      rw [onStack, ScopeStack.chain?_pop?]
      rfl
    rw [closeScope, depth_eq, bind_apply, hpop]
    rfl

-- the file scope itself cannot be closed, and without it there is no depth
example : closeScope .initial = none ∧ ScopeStack.depth? [] = none := ⟨rfl, rfl⟩

/-- After a step that leaves the outer scopes alone there is a scope to close. -/
theorem scoped_eq {m : Check Unit} {marks : Nat → List Event} (h : m.Confines marks) :
    (do openScope; lift m; closeScope) =
      lift (do Check.openScope; m; Check.closeScope) := by
  funext s
  have hdepth := ScopeChain.depth_eq_of_tail (h (Check.openScope s).state).below
  have hopen : ¬ (m (Check.openScope s).state).state.scopes.atFile = true := by
    intro hfile
    rw [ScopeChain.depth, List.isEmpty_iff.1 hfile] at hdepth
    cases hdepth
  rw [openScope_eq, lift_bind_apply, lift_bind_apply, closeScope_apply hopen]
  rfl

/-! ## Binding names -/

def judge (name : String) (kind : SymbolKind) (defining : Bool) : FaultingCheck Verdict := do
  let existing ← findFile name
  return Verdict.judge (existing.map fun x => (x.kind, x.defined)) kind defining

def bindGlobal (id : Ident) (ty : Ty) : FaultingCheck Unit := do
  match ← judge id.name .var true with
  | .clash kind => lift (Check.report kind id)
  | _ =>
    lift (Check.tell (.globalBound id.name ty))
    lift (Check.update fun s => { s with
      pending := if s.structs.isIncomplete ty then s.pending ++ [⟨id, ty⟩] else s.pending })
    onStack (ScopeStack.changeFile? (·.bind (.ofVariable id.name ty id.span)))
    lift (Check.recordGlobal id.name)

def bindLocal (id : Ident) (ty : Ty) : FaultingCheck Unit := do
  let s ← lift Check.state
  if (s.scopes.findHere? id.name).isSome then lift (Check.report .redefinition id)
  else
    lift (Check.tell (.localBound id.name ty (← depth)))
    lift (Check.update fun s =>
      { s with scopes := s.scopes.bind (.ofVariable id.name ty id.span) })

def bindVariable (id : Ident) (ty : Ty) : FaultingCheck Unit := do
  let s ← lift Check.state
  if s.structs.isIncomplete ty && (ty.isArray || !s.scopes.atFile) then
    lift (Check.report .incompleteType id)
  else if s.scopes.atFile then bindGlobal id ty
  else bindLocal id ty

def bindParams : List TypedIdent → FaultingCheck Unit
  | [] => return
  | p :: more => do
    bindVariable p.ident p.ty
    bindParams more

def bindFunction (id : Ident) (ty : Ty) (hasBody : Bool) : FaultingCheck Unit := do
  match ← judge id.name .func hasBody with
  | .fresh =>
    lift (Check.tell (.functionBound id.name ty hasBody))
    onStack (ScopeStack.changeFile? (·.bind (.ofFunction id.name ty hasBody id.span)))
    lift (Check.recordGlobal id.name)
  | .completes =>
    lift (Check.tell (.functionDefined id.name ty))
    onStack (ScopeStack.changeFile?
      (·.update id.name fun x => { x with ty := ty, defined := true }))
  | .clash kind => lift (Check.report kind id)

theorem judge_eq (name : String) (kind : SymbolKind) (defining : Bool) :
    judge name kind defining = lift (Check.judge name kind defining) := by
  rw [judge, findFile_eq]
  rfl

theorem bindGlobal_eq (id : Ident) (ty : Ty) :
    bindGlobal id ty = lift (Check.bindGlobal id ty) := by
  rw [bindGlobal, Check.bindGlobal, judge_eq, lift_bind]
  congr 1
  funext verdict
  cases verdict with
  | clash kind => rfl
  | fresh | completes =>
    rw [onStack_changeFile]
    rfl

theorem bindLocal_eq (id : Ident) (ty : Ty) : bindLocal id ty = lift (Check.bindLocal id ty) := by
  rw [bindLocal, Check.bindLocal, lift_bind, depth_eq]
  funext s
  rw [lift_bind_apply, lift_bind_apply]
  split <;> rfl

theorem bindVariable_eq (id : Ident) (ty : Ty) :
    bindVariable id ty = lift (Check.bindVariable id ty) := by
  rw [bindVariable, Check.bindVariable, lift_bind, bindGlobal_eq, bindLocal_eq]
  funext s
  rw [lift_bind_apply, lift_bind_apply]
  split
  · rfl
  · split <;> rfl

theorem bindParams_eq (params : List TypedIdent) :
    bindParams params = lift (Check.bindParams params) := by
  induction params with
  | nil => rfl
  | cons p more ih => rw [bindParams, bindVariable_eq, ih, Check.bindParams, lift_bind]

theorem bindFunction_eq (id : Ident) (ty : Ty) (hasBody : Bool) :
    bindFunction id ty hasBody = lift (Check.bindFunction id ty hasBody) := by
  rw [bindFunction, Check.bindFunction, judge_eq, lift_bind]
  congr 1
  funext verdict
  cases verdict with
  | clash kind => rfl
  | fresh | completes =>
    simp only [onStack_changeFile]
    rfl

end FaultingCheck

/-! ## The walk -/

open FaultingCheck (lift lift_bind lift_bind_bind scoped_eq bindVariable_eq bindParams_eq
  bindFunction_eq)

mutual

def Stmt.check? : Stmt → FaultingCheck Unit
  | .block stmts _ => do
    FaultingCheck.openScope
    checkStmts? stmts
    FaultingCheck.closeScope
  | .ifThen cond yes _ => do
    lift cond.check
    yes.check?
  | .ifElse cond yes no _ => do
    lift cond.check
    yes.check?
    no.check?
  | .loop cond body _ => do
    lift cond.check
    body.check?
  | .varDecl decl init _ => do
    let d ← lift decl.resolve
    FaultingCheck.bindVariable d.ident d.ty
    lift (checkOption init)
  | .expr value => lift value.check
  | .ret value _ => lift (checkOption value)
  | .brk _ | .cont _ | .empty _ => return

def checkStmts? : List Stmt → FaultingCheck Unit
  | [] => return
  | stmt :: more => do
    stmt.check?
    checkStmts? more

end

def checkBody? (params : List TypedIdent) (body : Block) : FaultingCheck Unit := do
  FaultingCheck.openScope
  FaultingCheck.bindParams params
  checkStmts? body.stmts
  FaultingCheck.closeScope

def Item.check? : Item → FaultingCheck Unit
  | .function sig body => do
    let (ty, params) ← lift sig.resolve
    FaultingCheck.bindFunction sig.name ty true
    checkBody? params body
  | .prototype sig => do
    let (ty, params) ← lift sig.resolve
    lift (Check.checkParams params)
    FaultingCheck.bindFunction sig.name ty false
  | .global decl => do
    let d ← lift decl.resolve
    FaultingCheck.bindVariable d.ident d.ty
  | .tagOnly specifier => do
    let _ ← lift specifier.resolve

def checkItems? : List Item → FaultingCheck Unit
  | [] => return
  | item :: more => do
    item.check?
    checkItems? more

/-- What the file scope binds to the recorded names, each looked up by position. -/
def State.symbols? (s : State) : Option (List Symbol) := do
  let found ← s.globals.mapM (ScopeStack.findFile? s.scopes.stack)
  return found.filterMap id

/-- Analyzes a program; none for a fault. -/
def Program.run? (p : Program) : Option Run := do
  let walked ← checkItems? p.items .initial
  let settled := settlePending walked.state
  let symbols ← settled.state.symbols?
  return ⟨⟨symbols, settled.state.structs⟩, walked.events ++ settled.events⟩

mutual

theorem Stmt.check?_eq : (stmt : Stmt) → stmt.check? = lift stmt.check
  | .block stmts _ => by
    rw [Stmt.check?, checkStmts?_eq stmts, Stmt.check]
    exact scoped_eq (checkStmts_confines stmts)
  | .ifThen cond yes _ => by
    rw [Stmt.check?, yes.check?_eq, Stmt.check, lift_bind]
  | .ifElse cond yes no _ => by
    rw [Stmt.check?, yes.check?_eq, no.check?_eq, Stmt.check, lift_bind, lift_bind]
  | .loop cond body _ => by
    rw [Stmt.check?, body.check?_eq, Stmt.check, lift_bind]
  | .varDecl decl init _ => by
    simp only [Stmt.check?, Stmt.check, bindVariable_eq]
    rfl
  | .expr value => by rw [Stmt.check?, Stmt.check]
  | .ret value _ => by rw [Stmt.check?, Stmt.check]
  | .brk _ | .cont _ | .empty _ => by
    rw [Stmt.check?, Stmt.check]
    rfl

theorem checkStmts?_eq : (stmts : List Stmt) → checkStmts? stmts = lift (checkStmts stmts)
  | [] => by
    rw [checkStmts?, checkStmts]
    rfl
  | stmt :: more => by
    rw [checkStmts?, stmt.check?_eq, checkStmts?_eq more, checkStmts, lift_bind]

end

theorem checkBody?_eq (params : List TypedIdent) (body : Block) :
    checkBody? params body = lift (checkBody params body) := by
  have hconfines := (Check.bindParams_confines params).bind (checkStmts_confines body.stmts)
  have hscoped := scoped_eq hconfines
  rw [checkBody?, bindParams_eq, checkStmts?_eq, checkBody]
  rw [lift_bind_bind, bind_assoc] at hscoped
  exact hscoped

theorem Item.check?_eq (item : Item) : item.check? = lift item.check := by
  cases item with
  | function sig body =>
    rw [Item.check?, Item.check]
    simp only [bindFunction_eq, checkBody?_eq]
    rfl
  | prototype sig =>
    rw [Item.check?, Item.check]
    simp only [bindFunction_eq]
    rfl
  | global decl =>
    rw [Item.check?, Item.check]
    simp only [bindVariable_eq]
    rfl
  | tagOnly _ => rfl

theorem checkItems?_eq (items : List Item) : checkItems? items = lift (checkItems items) := by
  induction items with
  | nil => rfl
  | cons item more ih => rw [checkItems?, item.check?_eq, ih, checkItems, lift_bind]

theorem State.symbols?_eq (s : State) : s.symbols? = some s.symbols := by
  have hfind : ScopeStack.findFile? s.scopes.stack = fun name => pure (s.scopes.findFile? name) :=
    funext (ScopeStack.findFile?_stack s.scopes)
  rw [symbols?, hfind, List.mapM_pure, symbols, pure_bind, List.filterMap_map]
  rfl

theorem Program.run?_eq (p : Program) : p.run? = some p.run := by
  rw [run?, checkItems?_eq]
  simp only [State.symbols?_eq]
  rfl

/-! ## The whole way -/

/-- The summary and the text of the report on a source, or its syntax error; none for a fault. -/
def report? (file source : String) : Option (Except SyntaxError (String × String)) := do
  let tokens ← Token.ofSource? source
  match ← Program.ofTokens? tokens with
  | .error e => return .error e
  | .ok program => do
    let run ← program.run?
    return .ok (run.result.summary, (Report.ofRun file run).text)

/-- No source leads to a fault. The tokens found by position, the program read from them by index
and the walk that reaches for its scopes by position come to what the program says and reports of
the source. -/
theorem no_source_faults (file source : String) :
    report? file source = some ((Program.parse source).map fun program =>
      (program.run.result.summary, (Report.ofRun file program.run).text)) := by
  obtain ⟨w, hw, -⟩ := Token.ofSource_ended source
  have hparse := Program.ofTokens?_eq hw
  rw [report?, Token.ofSource?_eq, Option.bind_eq_bind, Option.bind_some, hparse,
    Option.bind_eq_bind, Option.bind_some, Program.parse]
  cases Program.ofTokens (Token.ofSource source) with
  | error e => rfl
  | ok program =>
    simp only [Program.run?_eq]
    rfl

end MiniC
