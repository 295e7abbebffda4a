import MiniC.Syntax.Input

/-! # Reading expressions

    expr    := operand (BINARY operand)*                  grouped by precedence
    operand := UNARY operand | primary trailer*
    primary := IDENT | INTEGER | CHARACTER | STRING | '(' expr ')'
    trailer := '(' args ')' | '[' expr ']' | '.' IDENT | '->' IDENT
    args    := [ expr (',' expr)* [ ',' ] ]

`readExpr n` takes operators as long as their precedence is at least `n`; `readOperators` is its
loop, with the tree built so far as the left operand of the next operator. -/

namespace MiniC

/-- What a token right after an expression makes of it. -/
inductive Trailer where
  | call
  | index
  | member (arrow : Bool)
  deriving DecidableEq, Repr

/-- The trailer that a token starts. -/
def Kind.trailer? : Kind → Option Trailer
  | .mark .leftParen => some .call
  | .mark .leftBracket => some .index
  | .mark .dot => some (.member false)
  | .mark .arrow => some (.member true)
  | _ => none

namespace Input

mutual

/-- An expression whose binary operators outside of parentheses have precedence at least `least`. -/
def readExpr (least : Nat) (s : Input) : Reading Expr s.size := do
  let left ← s.readOperand
  let e ← readOperators least left.value left.input
  return left.chainLoop e
termination_by 6 * s.size + 3
decreasing_by all_goals grind

/-- Goes on with `left` while an operator of precedence at least `least` follows. -/
def readOperators (least : Nat) (left : Expr) (s : Input) : Reading Expr (s.size + 1) :=
  match s.accept? Kind.binOp? with
  | none => .ok (.stay s left)
  | some op =>
    if op.value.precedence < least then .ok (.stay s left)
    else do
      let right ← readExpr op.value.rightBinding op.input
      let e ← readOperators least
        (.binary op.value left right.value (left.span.join right.value.span)) right.input
      return (op.chain (right.chainLoop e)).loosen
termination_by 6 * s.size + 4
decreasing_by all_goals grind

/-- Unary operators in front of a primary expression with its trailers. -/
def readOperand (s : Input) : Reading Expr s.size :=
  match s.accept? Kind.unOp? with
  | some op => do
    let e ← op.input.readOperand
    return op.chain (e.give (.unary op.value e.value (op.input.last.join e.value.span)))
  | none => do
    let base ← s.readPrimary
    let e ← readTrailers base.value base.input
    return base.chainLoop e
termination_by 6 * s.size + 2
decreasing_by all_goals grind

/-- A name, a literal, or an expression in parentheses, which leave no trace in the tree. -/
def readPrimary (s : Input) : Reading Expr s.size :=
  match s.accept? Kind.literal? with
  | some literal => .ok (literal.give (.literal literal.value literal.input.last))
  | none =>
    match s.ident? with
    | some id => .ok (id.give (.name id.value))
    | none =>
      match s.mark? .leftParen with
      | some left => do
        let e ← readExpr 0 left.input
        let right ← e.input.readMark .rightParen
        return left.chain (e.chain (right.give e.value))
      | none => .error (s.fault .expectedExpr)
termination_by 6 * s.size + 1
decreasing_by all_goals grind

/-- The calls, indexings and member accesses that follow `base`. -/
def readTrailers (base : Expr) (s : Input) : Reading Expr (s.size + 1) :=
  match s.accept? Kind.trailer? with
  | none => .ok (.stay s base)
  | some left =>
    match left.value with
    | .call => do
      let args ← left.input.readArgs
      let right ← args.input.readMark .rightParen
      let e ← readTrailers (.call base args.value (base.span.join right.value)) right.input
      return (left.chain (args.loopChain (right.chainLoop e))).loosen
    | .index => do
      let offset ← readExpr 0 left.input
      let right ← offset.input.readMark .rightBracket
      let e ← readTrailers (.index base offset.value (base.span.join right.value)) right.input
      return (left.chain (offset.chain (right.chainLoop e))).loosen
    | .member arrow => do
      let field ← left.input.readIdent
      let e ← readTrailers
        (.member base field.value arrow (base.span.join field.value.span)) field.input
      return (left.chain (field.chainLoop e)).loosen
termination_by 6 * s.size
decreasing_by all_goals grind

/-- The arguments of a call up to the closing parenthesis, which a comma may precede. -/
def readArgs (s : Input) : Reading (List Expr) (s.size + 1) :=
  if s.stopsAt .rightParen then .ok (.stay s [])
  else do
    let arg ← readExpr 0 s
    match arg.input.mark? .comma with
    | none => return (arg.give [arg.value]).loosen
    | some comma =>
      let more ← comma.input.readArgs
      return (arg.chain (comma.chainLoop (more.give (arg.value :: more.value)))).loosen
termination_by 6 * s.size + 5
decreasing_by all_goals grind

end

end Input

end MiniC
