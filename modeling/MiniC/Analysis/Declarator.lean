import MiniC.Analysis.Check

/-! # From declarators to types

A declaration is resolved by composing the type of its specifier with the shape of its declarator.
A bound that is not a positive number is reported and its array level left out. -/

namespace MiniC

/-- The number that a bound's text stands for: decimal digits after at most one sign, between
-2^31 and 2^31 - 1. Any other text counts as -1. -/
def Bound.number (text : String) : Int :=
  let (sign, digits) : Int × List Char :=
    match text.toList with
    | '-' :: r => (-1, r)
    | '+' :: r => (1, r)
    | r => (1, r)
  if digits.isEmpty || !digits.all Char.isDigit then -1
  else
    let n := sign * (Nat.ofDigitChars 10 digits 0 : Int)
    if -2147483648 ≤ n ∧ n ≤ 2147483647 then n else -1

namespace Check

/-- An array of `elem`, or `elem` itself where the bound is no positive number, which is reported
at the declared name. -/
def arrayOf (id : Ident) (elem : Ty) (size : Bound) : Check Ty := do
  let n := Bound.number size.text
  if n ≤ 0 then
    report .incompleteType id
    return elem
  else return .array elem n.toNat

end Check

namespace Declarator

/-- The type of the declared name `id` over the type `base`. A star directly before an array
makes its elements pointers, and `(*id)[N]` is a pointer to an array. -/
def typeOver (id : Ident) (base : Ty) : Declarator → Check Ty
  | .ident _ => return base
  | .paren inner _ => typeOver id base inner
  | .pointer (.array elem size _) _ => do
    let ty ← typeOver id base elem
    Check.arrayOf id (.pointer ty) size
  | .pointer inner _ => return .pointer (← typeOver id base inner)
  | .array (.paren (.pointer (.ident _) _) _) size _ =>
    return .pointer (← Check.arrayOf id base size)
  | .array inner size _ => do
    let ty ← typeOver id base inner
    Check.arrayOf id ty size

/-- The declared name with its type over `base`. -/
def resolve (base : Ty) (d : Declarator) : Check TypedIdent := do
  let ty ← d.typeOver d.core base
  Check.tell (.resolved d.core.name ty)
  return ⟨d.core, ty⟩

end Declarator

mutual

/-- The type that a specifier names. A member list defines its tag, unless the tag has a definition
already, which is reported; the members are then passed over. -/
def Specifier.resolve : Specifier → Check Ty
  | .int _ => return .int
  | .char _ => return .char
  | .structRef tag _ => Check.mentionTag tag.name
  | .structDef tag members _ => do
    let ty ← Check.mentionTag tag.name
    if ← Check.defineTag tag.name then
      let fields ← resolveMembers [] members
      Check.giveFields tag.name fields
    else Check.report .redefinition tag
    return ty

def Decl.resolve : Decl → Check TypedIdent
  | ⟨specifier, declarator, _⟩ => do
    let base ← specifier.resolve
    declarator.resolve base

/-- The members of a struct after `fields`. A repeated name is reported and dropped, a member of
incomplete type is reported and kept. -/
def resolveMembers (fields : List Field) : List Decl → Check (List Field)
  | [] => return fields
  | member :: more => do
    let d ← member.resolve
    if fields.any (·.name == d.ident.name) then
      Check.report .redefinition d.ident
      resolveMembers fields more
    else
      if (← Check.state).structs.isIncomplete d.ty then
        Check.report .incompleteType d.ident
      resolveMembers (fields ++ [⟨d.ident.name, d.ty⟩]) more

end

/-- Resolves declarations in order. -/
def resolveDecls : List Decl → Check (List TypedIdent)
  | [] => return []
  | d :: more => do
    let declared ← d.resolve
    return declared :: (← resolveDecls more)

end MiniC
