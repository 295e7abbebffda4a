import MiniC.Syntax.Statement
import MiniC.Token.Lexer

/-! # Reading programs

    program := item*
    item    := specifier ';' | specifier declarator ';'
             | specifier IDENT '(' params ')' (';' | block)
    params  := [ decl (',' decl)* [ ',' ] ]

A name directly followed by a parenthesis starts a function, anything else after the specifier
is the declarator of a variable. -/

namespace MiniC

namespace Input

/-- The parameters of a function up to the closing parenthesis, which a comma may precede. -/
def readParams (s : Input) : Reading (List Decl) (s.size + 1) :=
  if s.stopsAt .rightParen then .ok (.stay s [])
  else do
    let param ← s.readDecl
    match param.input.mark? .comma with
    | none => return (param.give [param.value]).loosen
    | some comma =>
      let more ← comma.input.readParams
      return (param.chain (comma.chainLoop (more.give (param.value :: more.value)))).loosen
termination_by s.size
decreasing_by all_goals grind

/-- The name and parameters of a function with return type `ret`, and its body if it has one.
The span of the header covers the body too, but not the semicolon that stands in its place. -/
def readFunction (start : Span) (ret : Specifier) (s : Input) : Reading Item s.size := do
  let name ← s.readIdent
  let left ← name.input.readMark .leftParen
  let params ← left.input.readParams
  let right ← params.input.readMark .rightParen
  if right.input.kind = .mark .leftBrace then
    let body ← right.input.readBlock
    return name.chain (left.chain (params.loopChain (right.chain (body.give
      (.function ⟨ret, name.value, params.value, start.join body.value.span⟩ body.value)))))
  else
    let semi ← right.input.readMark .semicolon
    return name.chain (left.chain (params.loopChain (right.chain (semi.give
      (.prototype ⟨ret, name.value, params.value, start.join right.value⟩)))))

/-- The next token is a name and a parenthesis follows it. -/
def startsFunction (s : Input) : Bool :=
  match s.kind with
  | .ident _ => s.peek? = some (.mark .leftParen)
  | _ => false

def readItem (s : Input) : Reading Item s.size := do
  let start := s.current.span
  let spec ← s.readSpecifier
  match spec.input.mark? .semicolon with
  | some semi => return spec.chain (semi.give (.tagOnly spec.value))
  | none =>
    if spec.input.startsFunction then
      let item ← readFunction start spec.value spec.input
      return spec.chain item
    else
      let d ← spec.input.readDeclarator
      let semi ← d.input.readMark .semicolon
      return spec.chain (d.chain (semi.give
        (.global ⟨spec.value, d.value, start.join semi.value⟩)))

/-- All items up to the end of the source. -/
def readItems (s : Input) : Except SyntaxError (List Item) :=
  if s.kind = .eof then .ok []
  else do
    let item ← s.readItem
    let more ← item.input.readItems
    return item.value :: more
termination_by s.size
decreasing_by all_goals grind

/-- Items that were read are none, or a first one and the others after it. -/
theorem eq_of_readItems {s : Input} {items : List Item} (h : s.readItems = .ok items) :
    items = [] ∨ ∃ item more, s.readItem = .ok item ∧ item.input.readItems = .ok more ∧
      items = item.value :: more := by
  rw [readItems] at h
  split at h
  · exact .inl (Except.ok.inj h).symm
  · cases hitem : s.readItem with
    | error e =>
      rw [hitem] at h
      cases h
    | ok item =>
      cases hmore : item.input.readItems with
      | error e =>
        simp only [hitem, hmore, bind, Except.bind] at h
        cases h
      | ok more =>
        simp only [hitem, hmore, bind, Except.bind, pure, Except.pure] at h
        exact .inr ⟨item, more, rfl, hmore, (Except.ok.inj h).symm⟩

end Input

namespace Program

def ofTokens (tokens : List Token) : Except SyntaxError Program := do
  return ⟨← (Input.ofTokens tokens).readItems⟩

section

variable {tokens : List Token} {p : Program} {e : SyntaxError}

theorem ofTokens_eq_ok_iff :
    ofTokens tokens = .ok p ↔ (Input.ofTokens tokens).readItems = .ok p.items := by
  obtain ⟨items⟩ := p
  rw [ofTokens]
  cases (Input.ofTokens tokens).readItems <;> simp [bind, Except.bind, pure, Except.pure]

theorem ofTokens_eq_error_iff :
    ofTokens tokens = .error e ↔ (Input.ofTokens tokens).readItems = .error e := by
  rw [ofTokens]
  cases (Input.ofTokens tokens).readItems <;> simp [bind, Except.bind, pure, Except.pure]

end

/-- Reads a source text as a program. -/
def parse (source : String) : Except SyntaxError Program := ofTokens (Token.ofSource source)

end Program

end MiniC
