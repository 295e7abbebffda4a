import MiniC.Token.Basic

/-! # Operators of expressions

Which mark stands for which operator, and how tightly binary operators bind. Assignment binds
least and is the only one that groups to the right. -/

namespace MiniC

inductive BinOp where
  | add
  | sub
  | mul
  | div
  | mod
  | eq
  | ne
  | lt
  | le
  | gt
  | ge
  | and
  | or
  | bitAnd
  | bitOr
  | bitXor
  | shl
  | shr
  | assign
  deriving DecidableEq, Repr

namespace BinOp

/-- How tightly the operator binds; a larger number binds tighter. -/
def precedence : BinOp → Nat
  | .assign => 1
  | .or => 2
  | .and => 3
  | .bitOr => 4
  | .bitXor => 5
  | .bitAnd => 6
  | .eq | .ne => 7
  | .lt | .le | .gt | .ge => 8
  | .shl | .shr => 9
  | .add | .sub => 10
  | .mul | .div | .mod => 11

/-- The least precedence that the operators of the right operand need: its own for assignment,
which groups to the right, and one more for all others. -/
def rightBinding (op : BinOp) : Nat :=
  if op = .assign then op.precedence else op.precedence + 1

/-- The binary operator that a mark stands for. -/
def ofMark? : Mark → Option BinOp
  | .plus => some .add
  | .minus => some .sub
  | .star => some .mul
  | .slash => some .div
  | .percent => some .mod
  | .equal => some .eq
  | .notEqual => some .ne
  | .less => some .lt
  | .lessEqual => some .le
  | .greater => some .gt
  | .greaterEqual => some .ge
  | .andAnd => some .and
  | .orOr => some .or
  | .ampersand => some .bitAnd
  | .bar => some .bitOr
  | .caret => some .bitXor
  | .shiftLeft => some .shl
  | .shiftRight => some .shr
  | .assign => some .assign
  | _ => none

end BinOp

inductive UnOp where
  | neg
  | not
  | bitNot
  | deref
  | addrOf
  deriving DecidableEq, Repr

/-- The unary operator that a mark stands for in front of an operand. -/
def UnOp.ofMark? : Mark → Option UnOp
  | .minus => some .neg
  | .bang => some .not
  | .tilde => some .bitNot
  | .star => some .deref
  | .ampersand => some .addrOf
  | _ => none

namespace Kind

def binOp? : Kind → Option BinOp
  | .mark m => BinOp.ofMark? m
  | _ => none

def unOp? : Kind → Option UnOp
  | .mark m => UnOp.ofMark? m
  | _ => none

/-- The precedence of the token as a binary operator. -/
def precedence? (k : Kind) : Option Nat := k.binOp?.map BinOp.precedence

end Kind

end MiniC
