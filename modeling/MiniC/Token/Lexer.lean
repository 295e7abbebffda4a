import MiniC.Token.Basic

/-! # From characters to tokens

`Cursor.next?` skips a gap (blanks and comments) and reads one lexeme. Which lexeme stands at
the front of a text is decided by `Lexeme.read` from the characters alone; coordinates are
computed apart from that, by moving a `Place` over the characters covered. Reading ends because
every lexeme covers its first character (`Cursor.length_next?`).

A literal can be cut off by the end of the input in the middle of a character. Its end, and with
it the place of the end of input, then lies one step past the last character (`Lexeme.cut`). -/

namespace MiniC

/-- A position in the text: characters before it, line and column. -/
structure Place where
  offset : Nat
  line : Nat
  column : Nat
  deriving DecidableEq, Repr

namespace Place

/-- The beginning of a text. -/
def first : Place := ⟨0, 1, 1⟩

/-- The place one character further; a line feed starts the next line. -/
def move (p : Place) (c : Char) : Place :=
  if c = '\n' then ⟨p.offset + 1, p.line + 1, 1⟩ else ⟨p.offset + 1, p.line, p.column + 1⟩

/-- The place after all characters of `cs`. -/
def moveAll (p : Place) (cs : List Char) : Place := cs.foldl move p

theorem moveAll_append (p : Place) (cs ds : List Char) :
    p.moveAll (cs ++ ds) = (p.moveAll cs).moveAll ds :=
  List.foldl_append

theorem offset_move (p : Place) (c : Char) : (p.move c).offset = p.offset + 1 := by
  unfold move
  split <;> rfl

theorem offset_moveAll (p : Place) (cs : List Char) :
    (p.moveAll cs).offset = p.offset + cs.length := by
  induction cs generalizing p with
  | nil => rfl
  | cons c cs ih =>
    rw [moveAll, List.foldl_cons, ← moveAll, ih, offset_move, List.length_cons]
    omega

/-- One step to the right where no character is left. -/
def past (p : Place) : Place := ⟨p.offset + 1, p.line, p.column + 1⟩

end Place

/-- The span from `p` up to `q`. -/
def Span.between (p q : Place) : Span := ⟨p.offset, q.offset, p.line, p.column⟩

/-! ## Gaps -/

def isBlank (c : Char) : Bool := c = ' ' || c = '\t' || c = '\r' || c = '\n'

/-- Where in a gap a place lies. -/
inductive Gap where
  | between
  | inLine
  | inBlock
  deriving DecidableEq, Repr

/-- Skips blanks and comments. A line comment runs to the end of its line, a block comment to
the first closing mark or the end of the text. -/
def Gap.skip : Gap → Place → List Char → Place × List Char
  | _, p, [] => (p, [])
  | .between, p, '/' :: '/' :: r => skip .inLine ((p.move '/').move '/') r
  | .between, p, '/' :: '*' :: r => skip .inBlock ((p.move '/').move '*') r
  | .between, p, c :: r => if isBlank c then skip .between (p.move c) r else (p, c :: r)
  | .inLine, p, c :: r =>
    if c = '\n' then skip .between (p.move c) r else skip .inLine (p.move c) r
  | .inBlock, p, '*' :: '/' :: r => skip .between ((p.move '*').move '/') r
  | .inBlock, p, c :: r => skip .inBlock (p.move c) r

theorem Gap.length_skip_le (g : Gap) (p : Place) (cs : List Char) :
    (g.skip p cs).2.length ≤ cs.length := by
  fun_induction Gap.skip g p cs <;> simp_all <;> omega

/-! ## Lexemes -/

/-- Letters, digits and the underscore, ASCII only. -/
def isWordChar (c : Char) : Bool := c.isAlphanum || c = '_'

/-- The front of a text read as one token: its kind, how many characters it covers after the
first, and whether the end of the text cut it off inside a character. -/
structure Lexeme where
  kind : Kind
  tail : Nat
  cut : Bool
  deriving DecidableEq, Repr

/-- What stands after an opening quote: its value, the number of characters it covers, and
whether the text ended inside a character. -/
structure Quoted (α : Type) where
  value : α
  width : Nat
  cut : Bool
  deriving DecidableEq, Repr

/-- The character written by a backslash and `c`. -/
def unescape (c : Char) : Char :=
  match c with
  | 'n' => '\n'
  | 'r' => '\r'
  | 't' => '\t'
  | '0' => '\x00'
  | c => c

namespace Quoted

/-- A string up to and with its closing quote, or up to the end of the line or text. -/
def string : List Char → Quoted (List Char)
  | [] => ⟨[], 0, false⟩
  | ['\\'] => ⟨[], 1, true⟩
  | '\\' :: c :: r =>
    let q := string r
    ⟨unescape c :: q.value, q.width + 2, q.cut⟩
  | c :: r =>
    if c = '"' then ⟨[], 1, false⟩
    else if c = '\n' then ⟨[], 0, false⟩
    else
      let q := string r
      ⟨c :: q.value, q.width + 1, q.cut⟩

/-- One if a closing quote of a character literal comes next. -/
def closing : List Char → Nat
  | '\'' :: _ => 1
  | _ => 0

/-- The character of a character literal, with the closing quote if there is one. -/
def char : List Char → Quoted Char
  | [] => ⟨'\x00', 0, true⟩
  | ['\\'] => ⟨'\x00', 1, true⟩
  | '\\' :: c :: r => ⟨unescape c, closing r + 2, false⟩
  | c :: r => ⟨c, closing r + 1, false⟩

end Quoted

namespace Lexeme

/-- A word: an integer literal if it starts with a digit, else a keyword or a name. -/
def word (c : Char) (r : List Char) : Lexeme :=
  let more := r.takeWhile isWordChar
  let text := String.ofList (c :: more)
  let kind :=
    if c.isDigit then .integer text
    else match Keyword.ofText? text with
      | some k => .keyword k
      | none => .ident text
  ⟨kind, more.length, false⟩

/-- The longest mark at the front, or a single character that belongs to no token. -/
def symbol (c : Char) (r : List Char) : Lexeme :=
  match r.head?.bind (Mark.ofPair? c) with
  | some m => ⟨.mark m, 1, false⟩
  | none =>
    match Mark.ofChar? c with
    | some m => ⟨.mark m, 0, false⟩
    | none => ⟨.unknown c, 0, false⟩

/-- The lexeme at the front of the text `c :: r`, where no gap starts. -/
def read (c : Char) (r : List Char) : Lexeme :=
  if isWordChar c then word c r
  else if c = '"' then
    let q := Quoted.string r
    ⟨.string (String.ofList q.value), q.width, q.cut⟩
  else if c = '\'' then
    let q := Quoted.char r
    ⟨.character q.value, q.width, q.cut⟩
  else symbol c r

/-- The place where the lexeme ends that starts at `p` with the character `c`. -/
def stop (l : Lexeme) (p : Place) (c : Char) (r : List Char) : Place :=
  let q := p.moveAll (c :: r.take l.tail)
  if l.cut then q.past else q

end Lexeme

/-! ## Cursors -/

/-- A reading position: where it is and the characters still to read. -/
structure Cursor where
  place : Place
  rest : List Char
  deriving DecidableEq, Repr

namespace Cursor

def ofSource (source : String) : Cursor := ⟨.first, source.toList⟩

/-- The cursor after the gap that starts here. -/
def skipGap (c : Cursor) : Cursor :=
  let s := Gap.skip .between c.place c.rest
  ⟨s.1, s.2⟩

/-- The next token and the cursor after it; none where only a gap is left. -/
def next? (c : Cursor) : Option (Token × Cursor) :=
  let d := c.skipGap
  match d.rest with
  | [] => none
  | ch :: r =>
    let l := Lexeme.read ch r
    let q := l.stop d.place ch r
    some (⟨l.kind, .between d.place q⟩, ⟨q, r.drop l.tail⟩)

theorem length_next? {c d : Cursor} {t : Token} (h : c.next? = some (t, d)) :
    d.rest.length < c.rest.length := by
  have hs := Gap.length_skip_le .between c.place c.rest
  simp only [next?, skipGap] at h
  split at h
  · simp at h
  · next hr =>
    simp only [Option.some.injEq, Prod.mk.injEq] at h
    simp only [hr, List.length_cons] at hs
    simp only [← h.2, List.length_drop]
    omega

/-- The token that marks the end of the text, placed after the last gap. -/
def endToken (c : Cursor) : Token :=
  let p := c.skipGap.place
  ⟨.eof, .between p p⟩

/-- All tokens from here on, the end mark last. -/
def tokens (c : Cursor) : List Token :=
  match _ : c.next? with
  | some (t, d) => t :: d.tokens
  | none => [c.endToken]
termination_by c.rest.length
decreasing_by exact length_next? ‹_›

/-- One token and the cursor after it; at the end of the text the end mark, again and again. -/
def next (c : Cursor) : Token × Cursor := c.next?.getD (c.endToken, c.skipGap)

/-- The first `n` tokens, the end mark repeated where the text has fewer. -/
def nextTokens : Nat → Cursor → List Token
  | 0, _ => []
  | n + 1, c => c.next.1 :: nextTokens n c.next.2

end Cursor

/-- The tokens of a text, the end mark last. -/
def Token.ofSource (source : String) : List Token := (Cursor.ofSource source).tokens

end MiniC
