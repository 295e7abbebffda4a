import MiniC.Text.Escaped
import MiniC.Token.Basic

/-! # How messages name tokens -/

namespace MiniC

def Keyword.label : Keyword → String
  | .int => "Int"
  | .char => "Char"
  | .struct => "Struct"
  | .return_ => "Return"
  | .if_ => "If"
  | .else_ => "Else"
  | .while_ => "While"
  | .break_ => "Break"
  | .continue_ => "Continue"

def Mark.label : Mark → String
  | .plus => "Plus"
  | .minus => "Minus"
  | .star => "Star"
  | .slash => "Slash"
  | .percent => "Percent"
  | .assign => "Eq"
  | .equal => "EqEq"
  | .notEqual => "Ne"
  | .less => "Lt"
  | .lessEqual => "Le"
  | .greater => "Gt"
  | .greaterEqual => "Ge"
  | .andAnd => "AndAnd"
  | .orOr => "OrOr"
  | .bang => "Not"
  | .ampersand => "And"
  | .bar => "Or"
  | .caret => "Caret"
  | .tilde => "Tilde"
  | .shiftLeft => "Shl"
  | .shiftRight => "Shr"
  | .arrow => "Arrow"
  | .dot => "Dot"
  | .leftParen => "LParen"
  | .rightParen => "RParen"
  | .leftBrace => "LBrace"
  | .rightBrace => "RBrace"
  | .leftBracket => "LBracket"
  | .rightBracket => "RBracket"
  | .comma => "Comma"
  | .semicolon => "Semicolon"

namespace Kind

/-- The name of the kind, without its value. -/
def label : Kind → String
  | .keyword k => k.label
  | .ident _ => "Ident"
  | .integer _ => "IntLit"
  | .character _ => "CharLit"
  | .string _ => "StringLit"
  | .mark m => m.label
  | .unknown _ => "Unknown"
  | .eof => "Eof"

/-- The kind as messages show it: its name, and its value quoted in parentheses. -/
def caption (k : Kind) : String :=
  match k with
  | .ident text | .integer text | .string text => k.label ++ "(" ++ Text.quotedString text ++ ")"
  | .character c | .unknown c => k.label ++ "(" ++ Text.quotedChar c ++ ")"
  | _ => k.label

end Kind

end MiniC
