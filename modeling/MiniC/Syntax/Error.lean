import MiniC.Token.Caption

/-! # Syntax errors

Reading a program ends at its first syntax error: what was missing or in the way, and the token
it was found at. -/

namespace MiniC

namespace SyntaxError

inductive Cause where
  | unexpected (expected got : Kind)
  | expectedIdent
  | expectedSpecifier
  | expectedDeclarator
  | expectedExpr
  | expectedArraySize
  | invalidCharacter (char : Char)
  deriving DecidableEq, Repr

def Cause.message : Cause → String
  | .unexpected expected got =>
    "Unexpected token: expected " ++ expected.caption ++ ", got " ++ got.caption
  | .expectedIdent => "Expected identifier"
  | .expectedSpecifier => "Expected type specifier"
  | .expectedDeclarator => "Expected declarator"
  | .expectedExpr => "Expected expression"
  | .expectedArraySize => "Expected array size"
  | .invalidCharacter c => "Invalid character '" ++ String.ofList [c] ++ "'"

end SyntaxError

structure SyntaxError where
  cause : SyntaxError.Cause
  span : Span
  deriving DecidableEq, Repr

def SyntaxError.message (e : SyntaxError) : String := e.cause.message

end MiniC
