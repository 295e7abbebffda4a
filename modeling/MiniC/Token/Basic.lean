import MiniC.Span

/-! # Tokens

A token is a kind with the span it was read from. Kinds fall into reserved words (`Keyword`),
operators and punctuation (`Mark`), words and literals with their values, the end of the input,
and characters that belong to no token. -/

namespace MiniC

/-- The reserved words. -/
inductive Keyword where
  | int
  | char
  | struct
  | return_
  | if_
  | else_
  | while_
  | break_
  | continue_
  deriving DecidableEq, Repr

/-- The keyword spelled `text`. -/
def Keyword.ofText? (text : String) : Option Keyword :=
  match text with
  | "int" => some .int
  | "char" => some .char
  | "struct" => some .struct
  | "return" => some .return_
  | "if" => some .if_
  | "else" => some .else_
  | "while" => some .while_
  | "break" => some .break_
  | "continue" => some .continue_
  | _ => none

/-- Operators and punctuation. -/
inductive Mark where
  | plus
  | minus
  | star
  | slash
  | percent
  | assign
  | equal
  | notEqual
  | less
  | lessEqual
  | greater
  | greaterEqual
  | andAnd
  | orOr
  | bang
  | ampersand
  | bar
  | caret
  | tilde
  | shiftLeft
  | shiftRight
  | arrow
  | dot
  | leftParen
  | rightParen
  | leftBrace
  | rightBrace
  | leftBracket
  | rightBracket
  | comma
  | semicolon
  deriving DecidableEq, Repr

namespace Mark

/-- The mark spelled by two characters. -/
def ofPair? : Char → Char → Option Mark
  | '-', '>' => some .arrow
  | '=', '=' => some .equal
  | '!', '=' => some .notEqual
  | '<', '=' => some .lessEqual
  | '<', '<' => some .shiftLeft
  | '>', '=' => some .greaterEqual
  | '>', '>' => some .shiftRight
  | '&', '&' => some .andAnd
  | '|', '|' => some .orOr
  | _, _ => none

/-- The mark spelled by one character. -/
def ofChar? : Char → Option Mark
  | '+' => some .plus
  | '-' => some .minus
  | '*' => some .star
  | '/' => some .slash
  | '%' => some .percent
  | '=' => some .assign
  | '<' => some .less
  | '>' => some .greater
  | '!' => some .bang
  | '&' => some .ampersand
  | '|' => some .bar
  | '^' => some .caret
  | '~' => some .tilde
  | '.' => some .dot
  | '(' => some .leftParen
  | ')' => some .rightParen
  | '{' => some .leftBrace
  | '}' => some .rightBrace
  | '[' => some .leftBracket
  | ']' => some .rightBracket
  | ',' => some .comma
  | ';' => some .semicolon
  | _ => none

end Mark

/-- What a token is, with the value of those that have one. An integer literal keeps its text,
since only its later use decides whether that is a number. -/
inductive Kind where
  | keyword (word : Keyword)
  | ident (name : String)
  | integer (text : String)
  | character (value : Char)
  | string (value : String)
  | mark (mark : Mark)
  | unknown (char : Char)
  | eof
  deriving DecidableEq, Repr

/-- A type specifier can start here. -/
def Kind.beginsSpecifier : Kind → Bool
  | .keyword .int | .keyword .char | .keyword .struct => true
  | _ => false

structure Token where
  kind : Kind
  span : Span
  deriving DecidableEq, Repr

end MiniC
