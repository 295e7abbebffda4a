import MiniC.Analysis.Binding
import MiniC.Analysis.Declarator

/-! # Walking a program

The program is walked once, in source order. Blocks and function bodies open a scope; the body of a
function shares its scope with the parameters. Expressions are checked for unbound names only. -/

namespace MiniC

mutual

/-- Checks the names of an expression. A member name belongs to a struct and to no scope. -/
def Expr.check : Expr → Check Unit
  | .literal _ _ => return
  | .name id => Check.checkName id
  | .binary _ left right _ => do
    left.check
    right.check
  | .unary _ operand _ => operand.check
  | .call callee args _ => do
    callee.check
    checkExprs args
  | .index base offset _ => do
    base.check
    offset.check
  | .member base _ _ _ => base.check

def checkExprs : List Expr → Check Unit
  | [] => return
  | e :: more => do
    e.check
    checkExprs more

end

/-- Checks an expression that may be left out. -/
def checkOption : Option Expr → Check Unit
  | some e => e.check
  | none => return

mutual

def Stmt.check : Stmt → Check Unit
  | .block stmts _ => do
    Check.openScope
    checkStmts stmts
    Check.closeScope
  | .varDecl decl init _ => do
    let d ← decl.resolve
    Check.bindVariable d.ident d.ty
    checkOption init
  | .expr value => value.check
  | .ret value _ => checkOption value
  | .ifThen cond yes _ => do
    cond.check
    yes.check
  | .ifElse cond yes no _ => do
    cond.check
    yes.check
    no.check
  | .loop cond body _ => do
    cond.check
    body.check
  | .brk _ | .cont _ | .empty _ => return

def checkStmts : List Stmt → Check Unit
  | [] => return
  | stmt :: more => do
    stmt.check
    checkStmts more

end

/-- The type and the parameters that a function header gives. -/
def Signature.resolve (sig : Signature) : Check (Ty × List TypedIdent) := do
  let ret ← sig.ret.resolve
  let params ← resolveDecls sig.params
  return (.function ret (params.map (·.ty)), params)

/-- The scope of a function: its parameters and the statements of its body. -/
def checkBody (params : List TypedIdent) (body : Block) : Check Unit := do
  Check.openScope
  Check.bindParams params
  checkStmts body.stmts
  Check.closeScope

def Item.check : Item → Check Unit
  | .function sig body => do
    let (ty, params) ← sig.resolve
    Check.bindFunction sig.name ty true
    checkBody params body
  | .prototype sig => do
    let (ty, params) ← sig.resolve
    Check.checkParams params
    Check.bindFunction sig.name ty false
  | .global decl => do
    let d ← decl.resolve
    Check.bindVariable d.ident d.ty
  | .tagOnly specifier => do
    let _ ← specifier.resolve

def checkItems : List Item → Check Unit
  | [] => return
  | item :: more => do
    item.check
    checkItems more

/-- Looks again at global variables that were bound with an incomplete type. -/
def settle : List TypedIdent → Check Unit
  | [] => return
  | d :: more => do
    if (← Check.state).structs.isIncomplete d.ty then Check.report .incompleteType d.ident
    else Check.tell (.globalCompleted d.ident.name d.ty)
    settle more

/-- Settles all global variables that are waiting. -/
def settlePending : Check Unit := do
  let s ← Check.state
  Check.update fun s => { s with pending := [] }
  settle s.pending

end MiniC
