import MiniC.Proofs.Reading.Steps

/-!
# Reading by index

The grammar again, now read from a list of tokens by a position in it. Every access to the list is
by index and can miss; a miss ends the whole reading (`Indexed.fault`) and is neither a value nor a
syntax error. There are three accesses: to the token at the position, where the last token stands in
for all positions after it, to the index of that last token, and to the token before the position,
whose span ends what has been read. The operator of a token whose precedence is known is a fourth
place where reading can fault, as precedences have a table of their own here.

The number `n` that readers take bounds the depth of their recursion. To go deeper is a fault too.
-/

namespace MiniC

/-- A reading step by index: a value and the next position, a syntax error, or a fault. -/
abbrev Indexed (α : Type) : Type :=
  ReaderT (List Token) (StateT Nat (ExceptT SyntaxError Option)) α

namespace Indexed

/-- What comes of the step at the position `i`. -/
def run (g : Indexed α) (tokens : List Token) (i : Nat) : Option (Except SyntaxError (α × Nat)) :=
  g tokens i

/-! ## Access to the tokens -/

def fault : Indexed α := fun _ _ => (none : Option (Except SyntaxError (α × Nat)))

/-- The token with the index `i`. -/
def token (i : Nat) : Indexed Token := do
  match (← read)[i]? with
  | some t => return t
  | none => fault

/-- The index of the last token. -/
def lastIndex : Indexed Nat := do
  match (← read).length with
  | 0 => fault
  | n + 1 => return n

def current : Indexed Token := do token (min (← get) (← lastIndex))

/-- Goes on to the next token, if there is one. -/
def advance : Indexed Unit := do
  if (← get) < (← lastIndex) then modify (· + 1)

/-- The span of the token before the position, or of the first token. -/
def last : Indexed Span := do return (← token ((← get) - 1)).span

/-- The span of the next token. -/
def here : Indexed Span := do return (← current).span

def kind : Indexed Kind := do return (← current).kind

/-- The kind of the token after the next, where it is no fault if there is none. -/
def peek? : Indexed (Option Kind) := do return (← read)[(← get) + 1]?.map (·.kind)

/-- Fails at the next token. -/
def fail (f : Token → SyntaxError) : Indexed α := do throw (f (← current))

/-- Fails at the next token, with `cause` unless it is no token of the language. -/
def refuse (cause : Kind → SyntaxError.Cause) : Indexed α :=
  fail fun t => match t.kind with
    | .unknown c => ⟨.invalidCharacter c, t.span⟩
    | k => ⟨cause k, t.span⟩

/-- No list of constructs goes on at `m`, nor at the end of the source. -/
def stopsAt (m : Mark) : Indexed Bool := do
  let k ← kind
  return k = .mark m || k = .eof

/-- Takes the next token if `f` accepts it. -/
def take? (f : Token → Option α) : Indexed (Option α) := do
  match f (← current) with
  | some a => do
    advance
    return some a
  | none => return none

def kind? (f : Kind → Option α) : Indexed (Option α) := take? fun t => f t.kind

def mark? (m : Mark) : Indexed (Option Span) :=
  take? fun t => if t.kind = .mark m then some t.span else none

def keyword? (w : Keyword) : Indexed (Option Span) :=
  take? fun t => if t.kind = .keyword w then some t.span else none

def ident? : Indexed (Option Ident) := take? fun t =>
  match t.kind with
  | .ident name => some ⟨name, t.span⟩
  | _ => none

def mark (m : Mark) : Indexed Span := do
  match ← mark? m with
  | some span => return span
  | none => refuse fun k => .unexpected (.mark m) k

def ident : Indexed Ident := do
  match ← ident? with
  | some id => return id
  | none => refuse fun _ => .expectedIdent

def integer : Indexed String := do
  match ← kind? Reader.integer? with
  | some text => return text
  | none => fail fun t => ⟨.expectedArraySize, t.span⟩

/-! ## Declarations -/

def bound : Indexed Bound := do
  let start ← here
  match ← mark? .minus with
  | some _ => do
    let digits ← integer
    return ⟨"-" ++ digits, start.join (← last)⟩
  | none => do
    let digits ← integer
    return ⟨digits, start.join (← last)⟩

def arrays : Nat → Span → Declarator → Indexed Declarator
  | 0, _, _ => fault
  | n + 1, start, inner => do
    match ← mark? .leftBracket with
    | none => return inner
    | some _ => do
      let size ← bound
      let _ ← mark .rightBracket
      arrays n start (.array inner size (start.join (← last)))

def declarator : Nat → Indexed Declarator
  | 0 => fault
  | n + 1 => do
    match ← mark? .star with
    | some star => do
      let inner ← declarator n
      return .pointer inner (star.join (← last))
    | none => do
      match ← ident? with
      | some id => arrays n id.span (.ident id)
      | none => do
        match ← mark? .leftParen with
        | some left => do
          let inner ← declarator n
          let _ ← mark .rightParen
          arrays n left (.paren inner (left.join (← last)))
        | none => refuse fun _ => .expectedDeclarator

mutual

def specifier : Nat → Indexed Specifier
  | 0 => fault
  | n + 1 => do
    match ← keyword? .int with
    | some span => return .int span
    | none => do
      match ← keyword? .char with
      | some span => return .char span
      | none => do
        match ← keyword? .struct with
        | none => refuse fun _ => .expectedSpecifier
        | some struct => do
          let tag ← ident
          match ← mark? .leftBrace with
          | none => return .structRef tag (struct.join (← last))
          | some _ => do
            let fields ← members n
            let _ ← mark .rightBrace
            return .structDef tag fields (struct.join (← last))

def decl : Nat → Indexed Decl
  | 0 => fault
  | n + 1 => do
    let start ← here
    let spec ← specifier n
    let d ← declarator n
    return ⟨spec, d, start.join (← last)⟩

def members : Nat → Indexed (List Decl)
  | 0 => fault
  | n + 1 => do
    if ← stopsAt .rightBrace then return []
    else do
      let d ← decl n
      let _ ← mark .semicolon
      let more ← members n
      return d :: more

end

/-! ## Expressions -/

/-- How tightly a mark binds as a binary operator, without the operator. -/
def power? : Mark → Option Nat
  | .assign => some 1
  | .orOr => some 2
  | .andAnd => some 3
  | .bar => some 4
  | .caret => some 5
  | .ampersand => some 6
  | .equal | .notEqual => some 7
  | .less | .lessEqual | .greater | .greaterEqual => some 8
  | .shiftLeft | .shiftRight => some 9
  | .plus | .minus => some 10
  | .star | .slash | .percent => some 11
  | _ => none

/-- The precedence of a token as a binary operator. -/
def precedence? : Kind → Option Nat
  | .mark m => power? m
  | _ => none

/-- The operator that goes on with an expression of the precedence `least`. A token with such a
precedence is taken before it is known to stand for an operator. -/
def operator? (least : Nat) : Indexed (Option BinOp) := do
  let k ← kind
  match precedence? k with
  | none => return none
  | some power =>
    if power < least then return none
    else do
      advance
      match k.binOp? with
      | some op => return some op
      | none => fault

mutual

def expr : Nat → Nat → Indexed Expr
  | 0, _ => fault
  | n + 1, least => do
    let left ← operand n
    operators n least left

def operators : Nat → Nat → Expr → Indexed Expr
  | 0, _, _ => fault
  | n + 1, least, left => do
    match ← operator? least with
    | none => return left
    | some op => do
      let right ← expr n op.rightBinding
      operators n least (.binary op left right (left.span.join right.span))

def operand : Nat → Indexed Expr
  | 0 => fault
  | n + 1 => do
    let start ← here
    match ← kind? Kind.unOp? with
    | some op => do
      let e ← operand n
      return .unary op e (start.join e.span)
    | none => do
      let base ← primary n
      trailers n base

def primary : Nat → Indexed Expr
  | 0 => fault
  | n + 1 => do
    let start ← here
    match ← kind? Kind.literal? with
    | some value => return .literal value start
    | none => do
      match ← ident? with
      | some id => return .name id
      | none => do
        match ← mark? .leftParen with
        | some _ => do
          let e ← expr n 0
          let _ ← mark .rightParen
          return e
        | none => refuse fun _ => .expectedExpr

def trailers : Nat → Expr → Indexed Expr
  | 0, _ => fault
  | n + 1, base => do
    match ← kind? Kind.trailer? with
    | none => return base
    | some .call => do
      let values ← args n
      let _ ← mark .rightParen
      trailers n (.call base values (base.span.join (← last)))
    | some .index => do
      let offset ← expr n 0
      let _ ← mark .rightBracket
      trailers n (.index base offset (base.span.join (← last)))
    | some (.member arrow) => do
      let field ← ident
      trailers n (.member base field arrow (base.span.join field.span))

def args : Nat → Indexed (List Expr)
  | 0 => fault
  | n + 1 => do
    if ← stopsAt .rightParen then return []
    else do
      let first ← expr n 0
      match ← mark? .comma with
      | none => return [first]
      | some _ => do
        let rest ← args n
        return first :: rest

end

/-! ## Statements -/

def condition (n : Nat) : Indexed Expr := do
  let _ ← mark .leftParen
  let cond ← expr n 0
  let _ ← mark .rightParen
  return cond

/-- An expression and the span of the semicolon after it. -/
def exprSemi (n : Nat) : Indexed (Expr × Span) := do
  let value ← expr n 0
  let _ ← mark .semicolon
  return (value, ← last)

def varDecl (n : Nat) : Indexed Stmt := do
  let start ← here
  let d ← decl n
  match ← mark? .assign with
  | some _ => do
    let init ← exprSemi n
    return .varDecl d (some init.1) (start.join init.2)
  | none => do
    let _ ← mark .semicolon
    return .varDecl d none (start.join (← last))

def returned (n : Nat) (start : Span) : Indexed Stmt := do
  match ← mark? .semicolon with
  | some _ => return .ret none (start.join (← last))
  | none => do
    let value ← exprSemi n
    return .ret (some value.1) (start.join value.2)

mutual

def block : Nat → Indexed Block
  | 0 => fault
  | n + 1 => do
    let left ← mark .leftBrace
    let body ← stmts n
    let _ ← mark .rightBrace
    return ⟨body, left.join (← last)⟩

def stmt : Nat → Indexed Stmt
  | 0 => fault
  | n + 1 => do
    let start ← here
    let k ← kind
    if k.beginsSpecifier then varDecl n
    else if k = .mark .leftBrace then do
      let body ← block n
      return .block body.stmts body.span
    else do
      match ← kind? Kind.lead? with
      | some lead => led n start lead
      | none => do
        let value ← exprSemi n
        return .expr value.1

/-- The statement whose first token, at `start`, has been taken. -/
def led : Nat → Span → Lead → Indexed Stmt
  | 0, _, _ => fault
  | n + 1, start, lead => do
    match lead with
    | .ret => returned n start
    | .cond => do
      let cond ← condition n
      let yes ← stmt n
      match ← keyword? .else_ with
      | some _ => do
        let no ← stmt n
        return .ifElse cond yes no (start.join (← last))
      | none => return .ifThen cond yes (start.join (← last))
    | .loop => do
      let cond ← condition n
      let body ← stmt n
      return .loop cond body (start.join (← last))
    | .brk => do
      let _ ← mark .semicolon
      return .brk start
    | .cont => do
      let _ ← mark .semicolon
      return .cont start
    | .empty => return .empty start

def stmts : Nat → Indexed (List Stmt)
  | 0 => fault
  | n + 1 => do
    if ← stopsAt .rightBrace then return []
    else do
      let first ← stmt n
      let more ← stmts n
      return first :: more

end

/-! ## Items -/

def params : Nat → Indexed (List Decl)
  | 0 => fault
  | n + 1 => do
    if ← stopsAt .rightParen then return []
    else do
      let first ← decl n
      match ← mark? .comma with
      | none => return [first]
      | some _ => do
        let rest ← params n
        return first :: rest

/-- The function with the return type `ret`, from its name on. -/
def function (n : Nat) (start : Span) (ret : Specifier) : Indexed Item := do
  let name ← ident
  let _ ← mark .leftParen
  let ps ← params n
  let _ ← mark .rightParen
  let header := start.join (← last)
  if (← kind) = .mark .leftBrace then
    let body ← block n
    return .function ⟨ret, name, ps, start.join body.span⟩ body
  else
    let _ ← mark .semicolon
    return .prototype ⟨ret, name, ps, header⟩

/-- The next token is a name and a parenthesis follows it. -/
def startsFunction : Indexed Bool := do
  match ← kind with
  | .ident _ => return (← peek?) = some (.mark .leftParen)
  | _ => return false

def item (n : Nat) : Indexed Item := do
  let start ← here
  let spec ← specifier n
  match ← mark? .semicolon with
  | some _ => return .tagOnly spec
  | none => do
    if ← startsFunction then function n start spec
    else do
      let d ← declarator n
      let _ ← mark .semicolon
      return .global ⟨spec, d, start.join (← last)⟩

/-- All items up to the end of the source. -/
def items : Nat → Indexed (List Item)
  | 0 => fault
  | n + 1 => do
    if (← kind) = .eof then return []
    else do
      let first ← item n
      let more ← items n
      return first :: more

end Indexed

/-- Reads tokens as a program by index; none for a fault. Six steps of recursion for each token are
enough, as no reader calls more than six others before one of them takes a token. -/
def Program.ofTokens? (tokens : List Token) : Option (Except SyntaxError Program) := do
  let outcome ← (Indexed.items (6 * (tokens.length + 1))).run tokens 0
  return outcome.map fun read => ⟨read.1⟩

end MiniC
