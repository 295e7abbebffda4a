import MiniC.Syntax.Declaration
import MiniC.Syntax.Expression

/-! # Reading statements

    block := '{' stmt* '}'
    stmt  := block | decl [ '=' expr ] ';' | return [ expr ] ';'
           | if '(' expr ')' stmt [ else stmt ] | while '(' expr ')' stmt
           | break ';' | continue ';' | ';' | expr ';' -/

namespace MiniC

/-- The statements that a token of their own starts, blocks apart. -/
inductive Lead where
  | ret
  | cond
  | loop
  | brk
  | cont
  | empty
  deriving DecidableEq, Repr

/-- The statement that a token starts. -/
def Kind.lead? : Kind → Option Lead
  | .keyword .return_ => some .ret
  | .keyword .if_ => some .cond
  | .keyword .while_ => some .loop
  | .keyword .break_ => some .brk
  | .keyword .continue_ => some .cont
  | .mark .semicolon => some .empty
  | _ => none

namespace Input

/-- The condition of a statement, in parentheses. -/
def readCondition (s : Input) : Reading Expr s.size := do
  let left ← s.readMark .leftParen
  let cond ← readExpr 0 left.input
  let right ← cond.input.readMark .rightParen
  return left.chain (cond.chain (right.give cond.value))

/-- An expression with the semicolon after it, whose span is given too. -/
def readExprSemi (s : Input) : Reading (Expr × Span) s.size := do
  let value ← readExpr 0 s
  let semi ← value.input.readMark .semicolon
  return value.chain (semi.give (value.value, semi.value))

/-- A local variable with an optional initial value. -/
def readVarDecl (s : Input) : Reading Stmt s.size := do
  let d ← s.readDecl
  match d.input.mark? .assign with
  | some assign =>
    let init ← assign.input.readExprSemi
    return d.chain (assign.chain (init.give
      (.varDecl d.value (some init.value.1) (s.current.span.join init.value.2))))
  | none =>
    let semi ← d.input.readMark .semicolon
    return d.chain (semi.give (.varDecl d.value none (s.current.span.join semi.value)))

/-- What follows `return`; the statement starts at `start`. -/
def readReturn (start : Span) (s : Input) : Reading Stmt s.size :=
  match s.mark? .semicolon with
  | some semi => .ok (semi.give (.ret none (start.join semi.value)))
  | none => do
    let value ← s.readExprSemi
    return value.give (.ret (some value.value.1) (start.join value.value.2))

mutual

def readBlock (s : Input) : Reading Block s.size := do
  let left ← s.readMark .leftBrace
  let stmts ← left.input.readStmts
  let right ← stmts.input.readMark .rightBrace
  return left.chain (stmts.loopChain (right.give
    ⟨stmts.value, left.value.join right.value⟩))
termination_by 4 * s.size
decreasing_by all_goals grind

def readStmt (s : Input) : Reading Stmt s.size :=
  if s.kind.beginsSpecifier then s.readVarDecl
  else if s.kind = .mark .leftBrace then do
    let block ← s.readBlock
    return block.give (.block block.value.stmts block.value.span)
  else
    match s.accept? Kind.lead? with
    | some lead => do
      let stmt ← readLed lead.value lead.input
      return lead.chainLoop stmt
    | none => do
      let value ← s.readExprSemi
      return value.give (.expr value.value.1)
termination_by 4 * s.size + 2
decreasing_by all_goals grind

/-- What follows the token that started a statement. -/
def readLed (lead : Lead) (s : Input) : Reading Stmt (s.size + 1) :=
  let start := s.last
  match lead with
  | .ret => do
    let stmt ← readReturn start s
    return stmt.loosen
  | .cond => do
    let cond ← s.readCondition
    let yes ← cond.input.readStmt
    match yes.input.keyword? .else_ with
    | some alt =>
      let no ← alt.input.readStmt
      return (cond.chain (yes.chain (alt.chain (no.give
        (.ifElse cond.value yes.value no.value (start.join no.input.last)))))).loosen
    | none =>
      return (cond.chain (yes.give
        (.ifThen cond.value yes.value (start.join yes.input.last)))).loosen
  | .loop => do
    let cond ← s.readCondition
    let body ← cond.input.readStmt
    return (cond.chain (body.give
      (.loop cond.value body.value (start.join body.input.last)))).loosen
  | .brk => do
    let semi ← s.readMark .semicolon
    return (semi.give (.brk start)).loosen
  | .cont => do
    let semi ← s.readMark .semicolon
    return (semi.give (.cont start)).loosen
  | .empty => .ok (.stay s (.empty start))
termination_by 4 * s.size + 1
decreasing_by all_goals grind

/-- The statements up to the closing brace. -/
def readStmts (s : Input) : Reading (List Stmt) (s.size + 1) :=
  if s.stopsAt .rightBrace then .ok (.stay s [])
  else do
    let stmt ← s.readStmt
    let more ← stmt.input.readStmts
    return (stmt.chainLoop (more.give (stmt.value :: more.value))).loosen
termination_by 4 * s.size + 3
decreasing_by all_goals grind

end

end Input

end MiniC
