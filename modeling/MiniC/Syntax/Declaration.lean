import MiniC.Syntax.Input

/-! # Reading declarations

    decl       := specifier declarator
    specifier  := int | char | struct IDENT [ '{' (decl ';')* '}' ]
    declarator := '*' declarator | (IDENT | '(' declarator ')') ('[' bound ']')*
    bound      := [ '-' ] INTEGER

The members of a struct are declarations again, so specifiers, declarations and member lists
are read by one mutual recursion on the number of tokens left. -/

namespace MiniC.Input

/-- Takes an integer literal and gives its text. -/
def readInteger (s : Input) : Reading String s.size :=
  match s.accept? fun k => match k with | .integer text => some text | _ => none with
  | some p => .ok p
  | none => .error ⟨.expectedArraySize, s.current.span⟩

/-- A bound, whose text keeps the sign. -/
def readBound (s : Input) : Reading Bound s.size :=
  match s.mark? .minus with
  | some minus => do
    let digits ← minus.input.readInteger
    return minus.chain (digits.give ⟨"-" ++ digits.value, minus.value.join digits.input.last⟩)
  | none => do
    let digits ← s.readInteger
    return digits.give ⟨digits.value, s.current.span.join digits.input.last⟩

/-- The array bounds after `inner`, which starts at `start`. -/
def readArrays (start : Span) (inner : Declarator) (s : Input) : Reading Declarator (s.size + 1) :=
  match s.mark? .leftBracket with
  | none => .ok (.stay s inner)
  | some left => do
    let size ← left.input.readBound
    let right ← size.input.readMark .rightBracket
    let d ← readArrays start (.array inner size.value (start.join right.value)) right.input
    return (left.chain (size.chain (right.chainLoop d))).loosen
termination_by s.size
decreasing_by grind

def readDeclarator (s : Input) : Reading Declarator s.size :=
  match s.mark? .star with
  | some star => do
    let inner ← star.input.readDeclarator
    return star.chain (inner.give (.pointer inner.value (star.value.join inner.input.last)))
  | none =>
    match s.ident? with
    | some id => do
      let d ← readArrays id.value.span (.ident id.value) id.input
      return id.chainLoop d
    | none =>
      match s.mark? .leftParen with
      | some left => do
        let inner ← left.input.readDeclarator
        let right ← inner.input.readMark .rightParen
        let d ← readArrays left.value
          (.paren inner.value (left.value.join right.value)) right.input
        return left.chain (inner.chain (right.chainLoop d))
      | none => .error (s.fault .expectedDeclarator)
termination_by s.size
decreasing_by all_goals grind

mutual

def readSpecifier (s : Input) : Reading Specifier s.size :=
  match s.keyword? .int with
  | some int => .ok (int.give (.int int.value))
  | none =>
    match s.keyword? .char with
    | some char => .ok (char.give (.char char.value))
    | none =>
      match s.keyword? .struct with
      | none => .error (s.fault .expectedSpecifier)
      | some struct => do
        let tag ← struct.input.readIdent
        match tag.input.mark? .leftBrace with
        | none =>
          return struct.chain (tag.give
            (.structRef tag.value (struct.value.join tag.value.span)))
        | some left =>
          let members ← left.input.readMembers
          let right ← members.input.readMark .rightBrace
          return struct.chain (tag.chain (left.chain (members.loopChain (right.give
            (.structDef tag.value members.value (struct.value.join right.value))))))
termination_by 3 * s.size
decreasing_by all_goals grind

def readDecl (s : Input) : Reading Decl s.size := do
  let spec ← s.readSpecifier
  let d ← spec.input.readDeclarator
  return spec.chain (d.give ⟨spec.value, d.value, s.current.span.join d.input.last⟩)
termination_by 3 * s.size + 1
decreasing_by all_goals grind

/-- The declarations of a member list, each with its semicolon, up to the closing brace. -/
def readMembers (s : Input) : Reading (List Decl) (s.size + 1) :=
  if s.stopsAt .rightBrace then .ok (.stay s [])
  else do
    let d ← s.readDecl
    let semi ← d.input.readMark .semicolon
    let more ← semi.input.readMembers
    return (d.chain (semi.chainLoop (more.give (d.value :: more.value)))).loosen
termination_by 3 * s.size + 2
decreasing_by all_goals grind

end

end MiniC.Input
