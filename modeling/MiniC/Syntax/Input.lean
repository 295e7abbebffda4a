import MiniC.Syntax.Basic
import MiniC.Syntax.Error

/-! # Reading from a token list

An `Input` is what is left of a token list and the span of the last token taken from it, which
ends the spans of finished constructs. A reading step either fails with a `SyntaxError` or gives a
`Parsed` value, which carries the remaining input and the fact that it got shorter. Recursion in
the grammar ends by that fact: `Parsed.size_lt` is all that termination proofs need. -/

namespace MiniC

structure Input where
  last : Span
  rest : List Token
  deriving DecidableEq, Repr

/-- A value read from an input, with fewer than `n` tokens left to read after it. -/
structure Parsed (α : Type) (n : Nat) where
  value : α
  input : Input
  length_lt : input.rest.length < n

/-- The outcome of a reading step that must leave fewer than `n` tokens: from an input `s`, the
bound `s.size` asks for at least one token taken, and `s.size + 1` for none. -/
abbrev Reading (α : Type) (n : Nat) : Type := Except SyntaxError (Parsed α n)

namespace Input

/-- The input before any token has been taken. -/
def ofTokens (tokens : List Token) : Input := ⟨⟨0, 0, 1, 1⟩, tokens⟩

/-- The number of tokens left. -/
def size (s : Input) : Nat := s.rest.length

/-- The token to be read next; an exhausted list reads as the end of the source. -/
def current (s : Input) : Token := s.rest.headD ⟨.eof, s.last⟩

/-- The kind of the token to be read next. -/
def kind (s : Input) : Kind := s.current.kind

/-- The kind of the token after the current one. -/
def peek? (s : Input) : Option Kind := s.rest[1]?.map (·.kind)

end Input

namespace Parsed

theorem size_lt (p : Parsed α n) : p.input.size < n := p.length_lt

grind_pattern size_lt => p.input.size

/-- Nothing read, with a value. -/
def stay (s : Input) (value : α) : Parsed α (s.size + 1) := ⟨value, s, Nat.lt_succ_self _⟩

/-- The same reading with another value. -/
def give (p : Parsed α n) (value : β) : Parsed β n := ⟨value, p.input, p.length_lt⟩

/-- The same reading, of which less is asked. -/
def loosen (p : Parsed α n) : Parsed α (n + 1) :=
  ⟨p.value, p.input, Nat.lt_succ_of_lt p.length_lt⟩

/-- A reading and then another, whose value is kept. -/
def chain (p : Parsed α n) (q : Parsed β p.input.size) : Parsed β n :=
  ⟨q.value, q.input, Nat.lt_trans q.length_lt p.length_lt⟩

/-- A reading and then another that may have taken nothing. -/
def chainLoop (p : Parsed α n) (q : Parsed β (p.input.size + 1)) : Parsed β n :=
  ⟨q.value, q.input, Nat.lt_of_le_of_lt (Nat.le_of_lt_succ q.length_lt) p.length_lt⟩

/-- A reading that may have taken nothing and then another. -/
def loopChain (p : Parsed α (n + 1)) (q : Parsed β p.input.size) : Parsed β n :=
  ⟨q.value, q.input, Nat.lt_of_lt_of_le q.length_lt (Nat.le_of_lt_succ p.length_lt)⟩

section
variable (p : Parsed α n) (q : Parsed β p.input.size) (r : Parsed β (p.input.size + 1))
variable (l : Parsed α (n + 1)) (m : Parsed β l.input.size) (s : Input) (a : α) (b : β)

@[simp] theorem value_stay : (stay s a).value = a := rfl

@[simp] theorem input_stay : (stay s a).input = s := rfl

@[simp] theorem value_give : (p.give b).value = b := rfl

@[simp] theorem input_give : (p.give b).input = p.input := rfl

@[simp] theorem value_loosen : p.loosen.value = p.value := rfl

@[simp] theorem input_loosen : p.loosen.input = p.input := rfl

@[simp] theorem value_chain : (p.chain q).value = q.value := rfl

@[simp] theorem input_chain : (p.chain q).input = q.input := rfl

@[simp] theorem value_chainLoop : (p.chainLoop r).value = r.value := rfl

@[simp] theorem input_chainLoop : (p.chainLoop r).input = r.input := rfl

@[simp] theorem value_loopChain : (l.loopChain m).value = m.value := rfl

@[simp] theorem input_loopChain : (l.loopChain m).input = m.input := rfl

end

end Parsed

namespace Input

/-- Takes the current token if `f` accepts its kind. -/
def accept? (s : Input) (f : Kind → Option α) : Option (Parsed α s.size) :=
  match s with
  | ⟨_, []⟩ => none
  | ⟨_, t :: r⟩ => (f t.kind).map fun a => ⟨a, ⟨t.span, r⟩, Nat.lt_succ_self _⟩

/-- Takes the mark `m`, if it comes next, and gives its span. -/
def mark? (s : Input) (m : Mark) : Option (Parsed Span s.size) :=
  s.accept? fun k => if k = .mark m then some s.current.span else none

/-- Takes the keyword `w`, if it comes next, and gives its span. -/
def keyword? (s : Input) (w : Keyword) : Option (Parsed Span s.size) :=
  s.accept? fun k => if k = .keyword w then some s.current.span else none

/-- Takes a name, if one comes next. -/
def ident? (s : Input) : Option (Parsed Ident s.size) :=
  s.accept? fun k => match k with
    | .ident name => some ⟨name, s.current.span⟩
    | _ => none

/-- The error at the current token: `cause`, unless the token is no token of the language. -/
def fault (s : Input) (cause : SyntaxError.Cause) : SyntaxError :=
  match s.kind with
  | .unknown c => ⟨.invalidCharacter c, s.current.span⟩
  | _ => ⟨cause, s.current.span⟩

/-- Takes the mark `m` and gives its span. -/
def readMark (s : Input) (m : Mark) : Reading Span s.size :=
  match s.mark? m with
  | some p => .ok p
  | none => .error (s.fault (.unexpected (.mark m) s.kind))

def readIdent (s : Input) : Reading Ident s.size :=
  match s.ident? with
  | some p => .ok p
  | none => .error (s.fault .expectedIdent)

/-- No list of constructs goes on at `m`, nor at the end of the source. -/
def stopsAt (s : Input) (m : Mark) : Bool := s.kind = .mark m || s.kind = .eof

end Input

end MiniC
