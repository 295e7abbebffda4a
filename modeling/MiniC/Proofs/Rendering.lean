import MiniC.Proofs.Relabeling.Trees
import MiniC.Token.Lexer

/-!
# Trees as tokens

`render` writes a tree as token kinds. Every operand of an operator, a call, an indexing or a member
access is put in parentheses, so no precedence has to be consulted. `Canonical` singles out the
trees that rendering can distinguish: the words in them are words of the language, no array is
declared over a bare pointer declarator, and no branch before an `else` is still open for one.
-/

namespace MiniC

/-! ## Rendering -/

/-- The mark of a binary operator. -/
def BinOp.mark : BinOp → Mark
  | .add => .plus
  | .sub => .minus
  | .mul => .star
  | .div => .slash
  | .mod => .percent
  | .eq => .equal
  | .ne => .notEqual
  | .lt => .less
  | .le => .lessEqual
  | .gt => .greater
  | .ge => .greaterEqual
  | .and => .andAnd
  | .or => .orOr
  | .bitAnd => .ampersand
  | .bitOr => .bar
  | .bitXor => .caret
  | .shl => .shiftLeft
  | .shr => .shiftRight
  | .assign => .assign

/-- The mark of a unary operator. -/
def UnOp.mark : UnOp → Mark
  | .neg => .minus
  | .not => .bang
  | .bitNot => .tilde
  | .deref => .star
  | .addrOf => .ampersand

def Literal.kind : Literal → Kind
  | .int text => .integer text
  | .char value => .character value
  | .string value => .string value

/-- Kinds between two marks. -/
def enclosed (left right : Mark) (ks : List Kind) : List Kind :=
  .mark left :: (ks ++ [.mark right])

abbrev parens : List Kind → List Kind := enclosed .leftParen .rightParen

abbrev brackets : List Kind → List Kind := enclosed .leftBracket .rightBracket

abbrev braces : List Kind → List Kind := enclosed .leftBrace .rightBrace

@[simp] theorem enclosed_append (left right : Mark) (ks k : List Kind) :
    enclosed left right ks ++ k = .mark left :: (ks ++ .mark right :: k) := by
  simp [enclosed]

/-- Parts with a comma between each two. -/
def listed : List (List Kind) → List Kind
  | [] => []
  | [part] => part
  | part :: more => part ++ .mark .comma :: listed more

/-- A sign is a token of its own. -/
def Bound.render (size : Bound) : List Kind :=
  match size.text.toList with
  | '-' :: digits => [.mark .minus, .integer (String.ofList digits)]
  | _ => [.integer size.text]

def Declarator.render : Declarator → List Kind
  | .ident id => [.ident id.name]
  | .array inner size _ => inner.render ++ brackets size.render
  | .pointer inner _ => .mark .star :: inner.render
  | .paren inner _ => parens inner.render

mutual

def Specifier.render : Specifier → List Kind
  | .int _ => [.keyword .int]
  | .char _ => [.keyword .char]
  | .structRef tag _ => [.keyword .struct, .ident tag.name]
  | .structDef tag members _ =>
    .keyword .struct :: .ident tag.name :: braces (renderMembers members)

def Decl.render : Decl → List Kind
  | ⟨specifier, declarator, _⟩ => specifier.render ++ declarator.render

def renderMembers : List Decl → List Kind
  | [] => []
  | decl :: more => decl.render ++ .mark .semicolon :: renderMembers more

end

mutual

def Expr.render : Expr → List Kind
  | .literal value _ => [value.kind]
  | .name id => [.ident id.name]
  | .binary op left right _ => parens left.render ++ .mark op.mark :: parens right.render
  | .unary op operand _ => .mark op.mark :: parens operand.render
  | .call callee args _ => parens callee.render ++ parens (listed (renderExprs args))
  | .index base offset _ => parens base.render ++ brackets offset.render
  | .member base field arrow _ =>
    parens base.render ++ [.mark (if arrow then .arrow else .dot), .ident field.name]

/-- The arguments of a call, each by itself. -/
def renderExprs : List Expr → List (List Kind)
  | [] => []
  | e :: more => e.render :: renderExprs more

end

/-- An expression that may be left out. -/
def renderOption : Option Expr → List Kind
  | some e => e.render
  | none => []

/-- The initial value of a variable, if it has one. -/
def renderInit : Option Expr → List Kind
  | some e => .mark .assign :: e.render
  | none => []

mutual

def Stmt.render : Stmt → List Kind
  | .block stmts _ => braces (renderStmts stmts)
  | .varDecl decl init _ => decl.render ++ (renderInit init ++ [.mark .semicolon])
  | .expr value => value.render ++ [.mark .semicolon]
  | .ret value _ => .keyword .return_ :: (renderOption value ++ [.mark .semicolon])
  | .ifThen cond yes _ => .keyword .if_ :: (parens cond.render ++ yes.render)
  | .ifElse cond yes no _ =>
    .keyword .if_ :: (parens cond.render ++ (yes.render ++ .keyword .else_ :: no.render))
  | .loop cond body _ => .keyword .while_ :: (parens cond.render ++ body.render)
  | .brk _ => [.keyword .break_, .mark .semicolon]
  | .cont _ => [.keyword .continue_, .mark .semicolon]
  | .empty _ => [.mark .semicolon]

def renderStmts : List Stmt → List Kind
  | [] => []
  | stmt :: more => stmt.render ++ renderStmts more

end

def Block.render (body : Block) : List Kind := braces (renderStmts body.stmts)

def Signature.render (sig : Signature) : List Kind :=
  sig.ret.render ++ .ident sig.name.name :: parens (listed (sig.params.map Decl.render))

def Item.render : Item → List Kind
  | .function sig body => sig.render ++ body.render
  | .prototype sig => sig.render ++ [.mark .semicolon]
  | .global decl => decl.render ++ [.mark .semicolon]
  | .tagOnly specifier => specifier.render ++ [.mark .semicolon]

/-- The tokens of a program, without the end mark. -/
def Program.render (p : Program) : List Kind := p.items.flatMap Item.render

-- The tree of `-a;` keeps no parentheses; rendering puts them around every operand.
example : (Stmt.expr (.unary .neg (.name ⟨"a", ⟨1, 2, 1, 2⟩⟩) ⟨0, 2, 1, 1⟩)).erase.render =
    [.mark .minus, .mark .leftParen, .ident "a", .mark .rightParen, .mark .semicolon] := by cbv

/-! ## Canonical trees -/

/-- The text of a name: word characters, the first of them no digit, and no keyword. -/
def isName (text : String) : Bool :=
  match text.toList with
  | [] => false
  | c :: r => isWordChar c && !c.isDigit && r.all isWordChar && (Keyword.ofText? text).isNone

/-- The text of an integer: word characters, the first of them a digit. -/
def isInteger (text : String) : Bool :=
  match text.toList with
  | [] => false
  | c :: r => c.isDigit && r.all isWordChar

/-- The text of an array bound: an integer, with a sign or without. -/
def isBound (text : String) : Bool :=
  match text.toList with
  | '-' :: digits => isInteger (String.ofList digits)
  | _ => isInteger text

/-- The declarator starts with a star, so that brackets after it would not belong to it. -/
def Declarator.isPointer : Declarator → Bool
  | .pointer _ _ => true
  | .ident _ | .array _ _ _ | .paren _ _ => false

def Declarator.Canonical : Declarator → Prop
  | .ident id => isName id.name
  | .array inner size _ => inner.isPointer = false ∧ inner.Canonical ∧ isBound size.text
  | .pointer inner _ | .paren inner _ => inner.Canonical

mutual

def Specifier.Canonical : Specifier → Prop
  | .int _ | .char _ => True
  | .structRef tag _ => isName tag.name
  | .structDef tag members _ => isName tag.name ∧ canonicalDecls members

def Decl.Canonical : Decl → Prop
  | ⟨specifier, declarator, _⟩ => specifier.Canonical ∧ declarator.Canonical

def canonicalDecls : List Decl → Prop
  | [] => True
  | decl :: more => decl.Canonical ∧ canonicalDecls more

end

def Literal.Canonical : Literal → Prop
  | .int text => isInteger text
  | .char _ | .string _ => True

mutual

def Expr.Canonical : Expr → Prop
  | .literal value _ => value.Canonical
  | .name id => isName id.name
  | .binary _ left right _ => left.Canonical ∧ right.Canonical
  | .unary _ operand _ => operand.Canonical
  | .call callee args _ => callee.Canonical ∧ canonicalExprs args
  | .index base offset _ => base.Canonical ∧ offset.Canonical
  | .member base field _ _ => base.Canonical ∧ isName field.name

def canonicalExprs : List Expr → Prop
  | [] => True
  | e :: more => e.Canonical ∧ canonicalExprs more

end

/-- The statement ends in an `if` that an `else` right after it would belong to. -/
def Stmt.endsOpen : Stmt → Bool
  | .ifThen _ _ _ => true
  | .ifElse _ _ no _ => no.endsOpen
  | .loop _ body _ => body.endsOpen
  | .block _ _ | .varDecl _ _ _ | .expr _ | .ret _ _ | .brk _ | .cont _ | .empty _ => false

mutual

def Stmt.Canonical : Stmt → Prop
  | .block stmts _ => canonicalStmts stmts
  | .varDecl decl init _ => decl.Canonical ∧ ∀ e ∈ init, e.Canonical
  | .expr value => value.Canonical
  | .ret value _ => ∀ e ∈ value, e.Canonical
  | .ifThen cond yes _ => cond.Canonical ∧ yes.Canonical
  | .ifElse cond yes no _ =>
    cond.Canonical ∧ yes.endsOpen = false ∧ yes.Canonical ∧ no.Canonical
  | .loop cond body _ => cond.Canonical ∧ body.Canonical
  | .brk _ | .cont _ | .empty _ => True

def canonicalStmts : List Stmt → Prop
  | [] => True
  | stmt :: more => stmt.Canonical ∧ canonicalStmts more

end

def Signature.Canonical (sig : Signature) : Prop :=
  sig.ret.Canonical ∧ isName sig.name.name ∧ canonicalDecls sig.params

def Item.Canonical : Item → Prop
  | .function sig body => sig.Canonical ∧ canonicalStmts body.stmts
  | .prototype sig => sig.Canonical
  | .global decl => decl.Canonical
  | .tagOnly specifier => specifier.Canonical

def Program.Canonical (p : Program) : Prop := ∀ item ∈ p.items, item.Canonical

end MiniC
