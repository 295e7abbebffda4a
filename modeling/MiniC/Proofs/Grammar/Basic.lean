import MiniC.Proofs.Reparse.Program

/-!
# The grammar of programs

`Phrase lax x w v` says that the tokens `w` are a phrase of the kind `x`, and that `v` is what is
left of them when the parentheses of parenthesised expressions are taken out. The grammar has two
readings: strictly, commas stand between the elements of a list only; if it is `lax`, one comma may
stand after the last element too, and that comma is missing in `v` as well.

Expressions are layered by level, as usual: level 0 is assignment, levels 1 to 10 are the other
binary operators from the weakest to the strongest, and level 11 has unary operators and operands.
-/

namespace MiniC

/-- The lists with commas between their elements. -/
inductive Listing where
  | params
  | args

/-- The kinds of phrases. -/
inductive Nonterminal where
  | program
  | item
  | specifier
  | members
  | decl
  | declarator
  /-- A declarator without stars in front: a name or a declarator in parentheses, then arrays. -/
  | direct
  | bound
  | stmts
  | stmt
  | level (n : Nat)
  | unary
  /-- A primary expression with calls, indexings and member accesses after it. -/
  | trailed
  | primary
  /-- A list with one or more elements. -/
  | elements (list : Listing)
  /-- A list that may be empty. -/
  | list (list : Listing)

abbrev Nonterminal.expr : Nonterminal := .level 0

def Listing.element : Listing → Nonterminal
  | .params => .decl
  | .args => .expr

/-- The operators of a level, assignment apart. -/
def levelMarks : Nat → List Mark
  | 1 => [.orOr]
  | 2 => [.andAnd]
  | 3 => [.bar]
  | 4 => [.caret]
  | 5 => [.ampersand]
  | 6 => [.equal, .notEqual]
  | 7 => [.less, .lessEqual, .greater, .greaterEqual]
  | 8 => [.shiftLeft, .shiftRight]
  | 9 => [.plus, .minus]
  | 10 => [.star, .slash, .percent]
  | _ => []

def unaryMarks : List Mark := [.minus, .bang, .tilde, .star, .ampersand]

/-- The operators of a level are those of its precedence, which counts from 1. -/
theorem of_mem_levelMarks {m : Mark} {n : Nat} (h : m ∈ levelMarks n) :
    ∃ op, BinOp.ofMark? m = some op ∧ op.precedence = n + 1 := by
  unfold levelMarks at h
  split at h <;> simp only [List.mem_cons, List.not_mem_nil, or_false] at h
  case h_6 | h_8 | h_9 => rcases h with rfl | rfl <;> exact ⟨_, rfl, rfl⟩
  case h_7 => rcases h with rfl | rfl | rfl | rfl <;> exact ⟨_, rfl, rfl⟩
  case h_10 => rcases h with rfl | rfl | rfl <;> exact ⟨_, rfl, rfl⟩
  all_goals subst h; exact ⟨_, rfl, rfl⟩

theorem mark_mem_levelMarks {op : BinOp} (h : op ≠ .assign) :
    op.mark ∈ levelMarks (op.precedence - 1) := by
  cases op <;> first | decide | contradiction

theorem of_mem_unaryMarks {m : Mark} (h : m ∈ unaryMarks) :
    ∃ op, UnOp.ofMark? m = some op ∧ op.mark = m := by
  simp only [unaryMarks, List.mem_cons, List.not_mem_nil, or_false] at h
  rcases h with rfl | rfl | rfl | rfl | rfl <;> exact ⟨_, rfl, rfl⟩

theorem mark_mem_unaryMarks (op : UnOp) : op.mark ∈ unaryMarks := by
  cases op <;> decide

/-- The first tokens are a phrase of the kind, and the second are what is left of them. -/
inductive Phrase (lax : Bool) : Nonterminal → List Kind → List Kind → Prop
  -- programs
  | noItem : Phrase lax .program [] []
  | oneItem : Phrase lax .item w v → Phrase lax .program w' v' →
      Phrase lax .program (w ++ w') (v ++ v')
  | function : Phrase lax .specifier w v → isName name → Phrase lax (.list .params) ps qs →
      Phrase lax .stmts body body' →
      Phrase lax .item (w ++ .ident name :: (parens ps ++ braces body))
        (v ++ .ident name :: (parens qs ++ braces body'))
  | prototype : Phrase lax .specifier w v → isName name → Phrase lax (.list .params) ps qs →
      Phrase lax .item (w ++ .ident name :: (parens ps ++ [.mark .semicolon]))
        (v ++ .ident name :: (parens qs ++ [.mark .semicolon]))
  | global : Phrase lax .decl w v →
      Phrase lax .item (w ++ [.mark .semicolon]) (v ++ [.mark .semicolon])
  | tagOnly : Phrase lax .specifier w v →
      Phrase lax .item (w ++ [.mark .semicolon]) (v ++ [.mark .semicolon])
  -- declarations
  | int : Phrase lax .specifier [.keyword .int] [.keyword .int]
  | char : Phrase lax .specifier [.keyword .char] [.keyword .char]
  | structRef : isName tag →
      Phrase lax .specifier [.keyword .struct, .ident tag] [.keyword .struct, .ident tag]
  | structDef : isName tag → Phrase lax .members w v →
      Phrase lax .specifier (.keyword .struct :: .ident tag :: braces w)
        (.keyword .struct :: .ident tag :: braces v)
  | noMember : Phrase lax .members [] []
  | oneMember : Phrase lax .decl w v → Phrase lax .members w' v' →
      Phrase lax .members (w ++ .mark .semicolon :: w') (v ++ .mark .semicolon :: v')
  | decl : Phrase lax .specifier w v → Phrase lax .declarator w' v' →
      Phrase lax .decl (w ++ w') (v ++ v')
  | pointer : Phrase lax .declarator w v →
      Phrase lax .declarator (.mark .star :: w) (.mark .star :: v)
  | direct : Phrase lax .direct w v → Phrase lax .declarator w v
  | declared : isName name → Phrase lax .direct [.ident name] [.ident name]
  | grouped : Phrase lax .declarator w v → Phrase lax .direct (parens w) (parens v)
  | array : Phrase lax .direct w v → Phrase lax .bound w' v' →
      Phrase lax .direct (w ++ brackets w') (v ++ brackets v')
  | size : isInteger text → Phrase lax .bound [.integer text] [.integer text]
  | negSize : isInteger text →
      Phrase lax .bound [.mark .minus, .integer text] [.mark .minus, .integer text]
  -- statements
  | noStmt : Phrase lax .stmts [] []
  | oneStmt : Phrase lax .stmt w v → Phrase lax .stmts w' v' →
      Phrase lax .stmts (w ++ w') (v ++ v')
  | block : Phrase lax .stmts w v → Phrase lax .stmt (braces w) (braces v)
  | varDecl : Phrase lax .decl w v →
      Phrase lax .stmt (w ++ [.mark .semicolon]) (v ++ [.mark .semicolon])
  | varInit : Phrase lax .decl w v → Phrase lax .expr w' v' →
      Phrase lax .stmt (w ++ .mark .assign :: (w' ++ [.mark .semicolon]))
        (v ++ .mark .assign :: (v' ++ [.mark .semicolon]))
  | value : Phrase lax .expr w v →
      Phrase lax .stmt (w ++ [.mark .semicolon]) (v ++ [.mark .semicolon])
  | ret : Phrase lax .stmt [.keyword .return_, .mark .semicolon]
      [.keyword .return_, .mark .semicolon]
  | retValue : Phrase lax .expr w v →
      Phrase lax .stmt (.keyword .return_ :: (w ++ [.mark .semicolon]))
        (.keyword .return_ :: (v ++ [.mark .semicolon]))
  | ifThen : Phrase lax .expr c d → Phrase lax .stmt w v →
      Phrase lax .stmt (.keyword .if_ :: (parens c ++ w)) (.keyword .if_ :: (parens d ++ v))
  | ifElse : Phrase lax .expr c d → Phrase lax .stmt w v → Phrase lax .stmt w' v' →
      Phrase lax .stmt (.keyword .if_ :: (parens c ++ (w ++ .keyword .else_ :: w')))
        (.keyword .if_ :: (parens d ++ (v ++ .keyword .else_ :: v')))
  | loop : Phrase lax .expr c d → Phrase lax .stmt w v →
      Phrase lax .stmt (.keyword .while_ :: (parens c ++ w)) (.keyword .while_ :: (parens d ++ v))
  | brk : Phrase lax .stmt [.keyword .break_, .mark .semicolon]
      [.keyword .break_, .mark .semicolon]
  | cont : Phrase lax .stmt [.keyword .continue_, .mark .semicolon]
      [.keyword .continue_, .mark .semicolon]
  | empty : Phrase lax .stmt [.mark .semicolon] [.mark .semicolon]
  -- expressions
  | assign : Phrase lax (.level 1) w v → Phrase lax (.level 0) w' v' →
      Phrase lax (.level 0) (w ++ .mark .assign :: w') (v ++ .mark .assign :: v')
  | binary : m ∈ levelMarks n → Phrase lax (.level n) w v → Phrase lax (.level (n + 1)) w' v' →
      Phrase lax (.level n) (w ++ .mark m :: w') (v ++ .mark m :: v')
  | stronger : Phrase lax (.level (n + 1)) w v → Phrase lax (.level n) w v
  | strongest : Phrase lax .unary w v → Phrase lax (.level 11) w v
  | unary : m ∈ unaryMarks → Phrase lax .unary w v →
      Phrase lax .unary (.mark m :: w) (.mark m :: v)
  | trailed : Phrase lax .trailed w v → Phrase lax .unary w v
  | primary : Phrase lax .primary w v → Phrase lax .trailed w v
  | call : Phrase lax .trailed w v → Phrase lax (.list .args) as bs →
      Phrase lax .trailed (w ++ parens as) (v ++ parens bs)
  | index : Phrase lax .trailed w v → Phrase lax .expr w' v' →
      Phrase lax .trailed (w ++ brackets w') (v ++ brackets v')
  | member : Phrase lax .trailed w v → m = .dot ∨ m = .arrow → isName name →
      Phrase lax .trailed (w ++ [.mark m, .ident name]) (v ++ [.mark m, .ident name])
  | name : isName name → Phrase lax .primary [.ident name] [.ident name]
  | integer : isInteger text → Phrase lax .primary [.integer text] [.integer text]
  | character : Phrase lax .primary [.character c] [.character c]
  | string : Phrase lax .primary [.string text] [.string text]
  | paren : Phrase lax .expr w v → Phrase lax .primary (parens w) v
  -- lists
  | single : Phrase lax (Listing.element l) w v → Phrase lax (.elements l) w v
  | more : Phrase lax (Listing.element l) w v → Phrase lax (.elements l) w' v' →
      Phrase lax (.elements l) (w ++ .mark .comma :: w') (v ++ .mark .comma :: v')
  | closingComma : lax → Phrase lax (Listing.element l) w v →
      Phrase lax (.elements l) (w ++ [.mark .comma]) v
  | noElement : Phrase lax (.list l) [] []
  | elements : Phrase lax (.elements l) w v → Phrase lax (.list l) w v

/-- The tokens are a phrase of the kind `x`. -/
def Derives (lax : Bool) (x : Nonterminal) (w : List Kind) : Prop := ∃ v, Phrase lax x w v

theorem Phrase.derives (h : Phrase lax x w v) : Derives lax x w := ⟨v, h⟩

theorem Derives.imp {w w' : List Kind} (h : Derives lax x w) {f : List Kind → List Kind}
    (hf : ∀ v, Phrase lax x w v → Phrase lax y w' (f v)) : Derives lax y w' := by
  obtain ⟨v, h⟩ := h
  exact (hf v h).derives

/-! ## How phrases start -/

def Kind.beginsDirect : Kind → Bool
  | .ident _ | .mark .leftParen => true
  | _ => false

def Kind.beginsPrimary : Kind → Bool
  | .ident _ | .integer _ | .character _ | .string _ | .mark .leftParen => true
  | _ => false

/-- A phrase of this kind can be of no tokens. -/
def Nonterminal.nullable : Nonterminal → Bool
  | .program | .members | .stmts | .list _ => true
  | _ => false

/-- A phrase of this kind that is not empty can start with the token. -/
def Nonterminal.starts : Nonterminal → Kind → Bool
  | .item, c | .specifier, c | .decl, c | .elements .params, c => c.beginsSpecifier
  | .declarator, c => c = .mark .star || c.beginsDirect
  | .direct, c => c.beginsDirect
  | .stmt, c => c.beginsStmt
  | .level _, c | .unary, c | .elements .args, c => c.beginsExpr
  | .trailed, c | .primary, c => c.beginsPrimary
  | .program, _ | .members, _ | .stmts, _ | .list _, _ | .bound, _ => true

/-- The tokens start as phrases of the kind do. -/
def Nonterminal.Opens (x : Nonterminal) (w : List Kind) : Prop :=
  x.nullable = false → ∃ c k, w = c :: k ∧ x.starts c = true

section

variable {x y : Nonterminal} {w : List Kind} (h : x.Opens w) (hx : x.nullable = false)
  (hxy : ∀ c, x.starts c = true → y.starts c = true)
include h hx hxy

theorem Nonterminal.Opens.append (w' : List Kind) : y.Opens (w ++ w') := by
  obtain ⟨c, k, rfl, hc⟩ := h hx
  exact fun _ => ⟨c, k ++ w', rfl, hxy c hc⟩

theorem Nonterminal.Opens.imp : y.Opens w := by
  obtain ⟨c, k, rfl, hc⟩ := h hx
  exact fun _ => ⟨c, k, rfl, hxy c hc⟩

end

theorem Listing.nullable_element (l : Listing) : l.element.nullable = false := by
  cases l <;> rfl

theorem Listing.starts_elements {l : Listing} {c : Kind} (h : l.element.starts c = true) :
    (Nonterminal.elements l).starts c = true := by
  cases l <;> exact h

/-- What starts a primary expression starts an expression and is no operator. -/
theorem Kind.of_beginsPrimary {c : Kind} (h : c.beginsPrimary = true) :
    c.beginsExpr = true ∧ c.unOp? = none := by
  cases c with
  | mark m => cases m <;> first | exact ⟨rfl, rfl⟩ | cases h
  | ident | integer | character | string => exact ⟨rfl, rfl⟩
  | keyword | unknown | eof => cases h

theorem Phrase.opens (h : Phrase lax x w v) : x.Opens w := by
  induction h with
  | noItem | oneItem | noMember | oneMember | noStmt | oneStmt | noElement | elements =>
    intro hnull
    cases hnull
  | int | char | structRef | structDef | pointer | declared | grouped | size | negSize | block
  | ret | retValue | ifThen | ifElse | loop | brk | cont | empty | name | integer | character
  | string | paren => exact fun _ => ⟨_, _, rfl, rfl⟩
  | unary hm =>
    obtain ⟨op, hop, -⟩ := of_mem_unaryMarks hm
    exact fun _ => ⟨_, _, rfl, by simp [Nonterminal.starts, Kind.beginsExpr, hop]⟩
  | function _ _ _ _ ih _ _ | prototype _ _ _ ih _ | global _ ih | tagOnly _ ih | decl _ _ ih _
  | array _ _ ih _ | assign _ _ ih _ | binary _ _ _ ih _ | call _ _ ih _ | index _ _ ih _
  | member _ _ _ ih => exact ih.append rfl (fun _ hc => hc) _
  | varDecl _ ih | varInit _ _ ih _ =>
    exact ih.append (y := .stmt) rfl (fun _ => Kind.beginsStmt_of_beginsSpecifier) _
  | value _ ih => exact ih.append (y := .stmt) rfl (fun _ hc => (Kind.of_beginsExpr hc).2.2.2) _
  | direct _ ih => exact ih.imp rfl fun _ hc => Bool.or_eq_true_iff.2 (.inr hc)
  | stronger _ ih | strongest _ ih | primary _ ih => exact ih
  | trailed _ ih => exact ih.imp rfl fun _ hc => (Kind.of_beginsPrimary hc).1
  | single _ ih => exact ih.imp (Listing.nullable_element _) fun _ => Listing.starts_elements
  | more _ _ ih _ | closingComma _ _ ih =>
    exact ih.append (Listing.nullable_element _) (fun _ => Listing.starts_elements) _

end MiniC
