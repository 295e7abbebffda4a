import MiniC.Syntax.Operator

/-! # Program trees

Trees as they are read from the source: every node that can be pointed at carries its span.
Parentheses of expressions leave no node, those of declarators do, because they decide how
`*` and `[]` combine. -/

namespace MiniC

/-- A name where it is written. -/
structure Ident where
  name : String
  span : Span
  deriving DecidableEq, Repr

/-- An array bound as written; whether the text is a usable number is decided later. -/
structure Bound where
  text : String
  span : Span
  deriving DecidableEq, Repr

/-- The part of a declaration that names the declared thing and shapes its type. -/
inductive Declarator where
  | ident (id : Ident)
  | array (inner : Declarator) (size : Bound) (span : Span)
  | pointer (inner : Declarator) (span : Span)
  | paren (inner : Declarator) (span : Span)
  deriving DecidableEq, Repr

/-- The declared name. -/
def Declarator.core : Declarator → Ident
  | .ident id => id
  | .array inner _ _ | .pointer inner _ | .paren inner _ => inner.core

mutual

/-- The base type of a declaration: a basic type, a struct named by its tag alone, or a struct
with its member list. -/
inductive Specifier where
  | int (span : Span)
  | char (span : Span)
  | structRef (tag : Ident) (span : Span)
  | structDef (tag : Ident) (members : List Decl) (span : Span)

/-- A specifier with one declarator. -/
structure Decl where
  specifier : Specifier
  declarator : Declarator
  span : Span

end

inductive Literal where
  | int (text : String)
  | char (value : Char)
  | string (value : String)
  deriving DecidableEq, Repr

/-- The literal that a token writes. -/
def Kind.literal? : Kind → Option Literal
  | .integer text => some (.int text)
  | .character c => some (.char c)
  | .string text => some (.string text)
  | _ => none

inductive Expr where
  | literal (value : Literal) (span : Span)
  | name (id : Ident)
  | binary (op : BinOp) (left right : Expr) (span : Span)
  | unary (op : UnOp) (operand : Expr) (span : Span)
  | call (callee : Expr) (args : List Expr) (span : Span)
  | index (base offset : Expr) (span : Span)
  | member (base : Expr) (field : Ident) (arrow : Bool) (span : Span)

def Expr.span : Expr → Span
  | .literal _ span | .binary _ _ _ span | .unary _ _ span | .call _ _ span | .index _ _ span
  | .member _ _ _ span => span
  | .name id => id.span

inductive Stmt where
  | block (stmts : List Stmt) (span : Span)
  | varDecl (decl : Decl) (init : Option Expr) (span : Span)
  | expr (value : Expr)
  | ret (value : Option Expr) (span : Span)
  | ifThen (cond : Expr) (yes : Stmt) (span : Span)
  | ifElse (cond : Expr) (yes no : Stmt) (span : Span)
  | loop (cond : Expr) (body : Stmt) (span : Span)
  | brk (span : Span)
  | cont (span : Span)
  | empty (span : Span)

/-- Statements between braces. -/
structure Block where
  stmts : List Stmt
  span : Span

/-- The header of a function. -/
structure Signature where
  ret : Specifier
  name : Ident
  params : List Decl
  span : Span

/-- A top-level item. A specifier alone declares nothing but the struct tags in it. -/
inductive Item where
  | function (sig : Signature) (body : Block)
  | prototype (sig : Signature)
  | global (decl : Decl)
  | tagOnly (specifier : Specifier)

structure Program where
  items : List Item

end MiniC
