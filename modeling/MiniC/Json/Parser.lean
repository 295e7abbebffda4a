import MiniC.Json.Basic

/-! # Reading JSON text

    value  := null | true | false | number | string | list | object
    number := [ '-' ] ('0' | [1-9][0-9]*) [ '.' [0-9]+ ] [ ('e' | 'E') [ '+' | '-' ] [0-9]+ ]
    list   := '[' [ value (',' value)* ] ']'
    object := '{' [ string ':' value (',' string ':' value)* ] '}'

Blanks may stand around every value and mark. A step gives what it read with the characters left,
which are fewer, and none where the text breaks the rules. -/

namespace MiniC.Json

/-- A value read from a text, with fewer than `n` characters left after it. -/
structure Taken (α : Type) (n : Nat) where
  value : α
  rest : List Char
  length_lt : rest.length < n

namespace Taken

grind_pattern length_lt => self.rest.length

/-- Nothing taken, with a value. -/
def stay (cs : List Char) (value : α) : Taken α (cs.length + 1) := ⟨value, cs, Nat.lt_succ_self _⟩

/-- The same taken, with another value. -/
def give (p : Taken α n) (value : β) : Taken β n := ⟨value, p.rest, p.length_lt⟩

/-- The same taken, where more was there before it. -/
def widen (h : n ≤ m) (p : Taken α n) : Taken α m :=
  ⟨p.value, p.rest, Nat.lt_of_lt_of_le p.length_lt h⟩

/-- One thing taken and then another, whose value is kept. -/
def chain (p : Taken α n) (q : Taken β p.rest.length) : Taken β n :=
  ⟨q.value, q.rest, Nat.lt_trans q.length_lt p.length_lt⟩

/-- One thing taken and then another, which may have been nothing. -/
def chainLoop (p : Taken α n) (q : Taken β (p.rest.length + 1)) : Taken β n :=
  ⟨q.value, q.rest, Nat.lt_of_le_of_lt (Nat.le_of_lt_succ q.length_lt) p.length_lt⟩

end Taken

def isBlank (c : Char) : Bool := c = ' ' || c = '\t' || c = '\n' || c = '\r'

def skipBlanks (cs : List Char) : List Char := cs.dropWhile isBlank

theorem length_skipBlanks_le (cs : List Char) : (skipBlanks cs).length ≤ cs.length :=
  (List.dropWhile_sublist _).length_le

/-- The first character that is no blank. -/
def readMark (cs : List Char) : Option (Taken Char cs.length) :=
  match h : skipBlanks cs with
  | [] => none
  | c :: r => some ⟨c, r, by
      have := length_skipBlanks_le cs
      rw [h] at this
      exact this⟩

/-! ## Strings -/

/-- The value of a hexadecimal digit. -/
def hexDigit? (c : Char) : Option Nat :=
  if '0' ≤ c ∧ c ≤ '9' then some (c.toNat - '0'.toNat)
  else if 'a' ≤ c ∧ c ≤ 'f' then some (c.toNat - 'a'.toNat + 10)
  else if 'A' ≤ c ∧ c ≤ 'F' then some (c.toNat - 'A'.toNat + 10)
  else none

/-- The number that four hexadecimal digits write. -/
def hex? (a b c d : Char) : Option Nat := do
  return (((← hexDigit? a) * 16 + (← hexDigit? b)) * 16 + (← hexDigit? c)) * 16 + (← hexDigit? d)

/-- The character written by a backslash and `c`. -/
def unescape? (c : Char) : Option Char :=
  match c with
  | '"' => some '"'
  | '\\' => some '\\'
  | '/' => some '/'
  | 'b' => some '\x08'
  | 'f' => some '\x0c'
  | 'n' => some '\n'
  | 'r' => some '\r'
  | 't' => some '\t'
  | _ => none

/-- The code points of a string up to its closing quote, and what follows that. An escape can give
half of a surrogate pair. -/
def readCodes : List Char → Option (List Nat × List Char)
  | [] => none
  | '\\' :: 'u' :: a :: b :: c :: d :: r => do
    let code ← hex? a b c d
    let (codes, rest) ← readCodes r
    return (code :: codes, rest)
  | '\\' :: c :: r => do
    let ch ← unescape? c
    let (codes, rest) ← readCodes r
    return (ch.toNat :: codes, rest)
  | c :: r =>
    if c = '"' then some ([], r)
    else if c.toNat < 0x20 then none
    else do
      let (codes, rest) ← readCodes r
      return (c.toNat :: codes, rest)

theorem length_readCodes {cs rest : List Char} {codes : List Nat}
    (h : readCodes cs = some (codes, rest)) : rest.length < cs.length := by
  fun_induction readCodes cs generalizing codes rest <;>
    simp [Option.bind_eq_some_iff] at h
  case case2 ih =>
    obtain ⟨_, _, _, hr, _⟩ := h
    have := ih hr
    simp only [List.length_cons]
    omega
  case case3 ih =>
    obtain ⟨_, _, _, hr, _⟩ := h
    have := ih hr
    simp only [List.length_cons]
    omega
  case case4 => simp [← h.2]
  case case6 ih =>
    obtain ⟨_, hr, _⟩ := h
    have := ih hr
    simp only [List.length_cons]
    omega

def isHighHalf (n : Nat) : Bool := 0xD800 ≤ n && n ≤ 0xDBFF

def isLowHalf (n : Nat) : Bool := 0xDC00 ≤ n && n ≤ 0xDFFF

/-- The characters of code points, surrogate pairs joined; none if half of a pair is missing. -/
def joinHalves : List Nat → Option (List Char)
  | [] => some []
  | [n] => if isHighHalf n || isLowHalf n then none else some [Char.ofNat n]
  | n :: m :: r =>
    if isHighHalf n then
      if isLowHalf m then
        (joinHalves r).map (Char.ofNat (0x10000 + (n - 0xD800) * 0x400 + (m - 0xDC00)) :: ·)
      else none
    else if isLowHalf n then none
    else (joinHalves (m :: r)).map (Char.ofNat n :: ·)

/-- A string after its opening quote; its value is none if it is not Unicode text. -/
def readString (cs : List Char) : Option (Taken (Option String) cs.length) :=
  match h : readCodes cs with
  | some (codes, rest) =>
    some ⟨(joinHalves codes).map String.ofList, rest, length_readCodes h⟩
  | none => none

/-! ## Numbers -/

/-- Digits, at least one. -/
def readDigits (cs : List Char) : Option (Taken (List Char) cs.length) :=
  let digits := cs.takeWhile Char.isDigit
  if h : digits = [] then none
  else some ⟨digits, cs.drop digits.length, by
    have h₁ : digits.length ≤ cs.length := (List.takeWhile_sublist _).length_le
    have h₂ := List.length_pos_iff.2 h
    simp only [List.length_drop]
    omega⟩

/-- The fraction of a number, if there is one; the value says so. -/
def readFraction : (cs : List Char) → Option (Taken Bool (cs.length + 1))
  | [] => some (.stay [] false)
  | c :: r =>
    if c = '.' then do
      let digits ← readDigits r
      return (digits.give true).widen (Nat.le_add_right _ 2)
    else some (.stay (c :: r) false)

/-- Drops a sign. -/
def skipSign : List Char → List Char
  | '+' :: r => r
  | '-' :: r => r
  | r => r

theorem length_skipSign_le (cs : List Char) : (skipSign cs).length ≤ cs.length := by
  fun_cases skipSign cs <;> simp

/-- The exponent of a number, if there is one; the value says so. -/
def readExponent : (cs : List Char) → Option (Taken Bool (cs.length + 1))
  | [] => some (.stay [] false)
  | c :: r =>
    if c = 'e' || c = 'E' then do
      let digits ← readDigits (skipSign r)
      return (digits.give true).widen (Nat.le_trans (length_skipSign_le r) (Nat.le_add_right _ 2))
    else some (.stay (c :: r) false)

/-- A number without its sign. It is a natural if it has neither fraction nor exponent; a leading
zero stands alone. -/
def readUnsigned (cs : List Char) : Option (Taken Json cs.length) := do
  let digits ← readDigits cs
  if digits.value.head? = some '0' ∧ digits.value.length ≠ 1 then none
  let fraction ← readFraction digits.rest
  let exponent ← readExponent fraction.rest
  let value := if fraction.value || exponent.value then .other
    else .nat (Nat.ofDigitChars 10 digits.value 0)
  return digits.chainLoop (fraction.chainLoop (exponent.give value))

/-! ## Values -/

/-- The fixed text `word`, which means `value`. -/
def readWord (word : String) (value : Json) (cs : List Char) :
    Option (Taken Json (cs.length + 1)) :=
  if word.toList.isPrefixOf cs then
    some ⟨value, cs.drop word.toList.length, by simp only [List.length_drop]; omega⟩
  else none

/-- An object, or `other` if one of its keys is not Unicode text. -/
def ofMembers (members : List (Option String × Json)) : Json :=
  match members.mapM fun (key, value) => key.map (·, value) with
  | some ms => .object ms
  | none => .other

mutual

/-- A value with the blanks before it. -/
def readValue (cs : List Char) : Option (Taken Json cs.length) := do
  let first ← readMark cs
  match first.value with
  | '"' =>
    let s ← readString first.rest
    return first.chain (s.give ((s.value.map Json.string).getD .other))
  | '[' =>
    let next ← readMark first.rest
    if next.value = ']' then return first.chain (next.give (.list []))
    else
      let items ← readItems first.rest
      return first.chain (items.give (.list items.value))
  | '{' =>
    let next ← readMark first.rest
    if next.value = '}' then return first.chain (next.give (.object []))
    else
      let members ← readMembers first.rest
      return first.chain (members.give (ofMembers members.value))
  | 'n' => return first.chainLoop (← readWord "ull" .null first.rest)
  | 't' => return first.chainLoop (← readWord "rue" (.bool true) first.rest)
  | 'f' => return first.chainLoop (← readWord "alse" (.bool false) first.rest)
  | '-' =>
    let n ← readUnsigned first.rest
    return first.chain (n.give .other)
  | c =>
    let n ← readUnsigned (c :: first.rest)
    return n.widen first.length_lt
termination_by 2 * cs.length
decreasing_by all_goals grind

/-- The entries of a list, at least one, and its closing bracket. -/
def readItems (cs : List Char) : Option (Taken (List Json) cs.length) := do
  let item ← readValue cs
  let next ← readMark item.rest
  match next.value with
  | ',' =>
    let more ← readItems next.rest
    return item.chain (next.chain (more.give (item.value :: more.value)))
  | ']' => return item.chain (next.give [item.value])
  | _ => none
termination_by 2 * cs.length + 1
decreasing_by all_goals grind

/-- The entries of an object, at least one, and its closing brace. A key that is not Unicode text
is none. -/
def readMembers (cs : List Char) : Option (Taken (List (Option String × Json)) cs.length) := do
  let quote ← readMark cs
  if quote.value ≠ '"' then none
  let key ← readString quote.rest
  let colon ← readMark key.rest
  if colon.value ≠ ':' then none
  let value ← readValue colon.rest
  let next ← readMark value.rest
  match next.value with
  | ',' =>
    let more ← readMembers next.rest
    return quote.chain (key.chain (colon.chain (value.chain (next.chain (more.give
      ((key.value, value.value) :: more.value))))))
  | '}' =>
    return quote.chain (key.chain (colon.chain (value.chain (next.give
      [(key.value, value.value)]))))
  | _ => none
termination_by 2 * cs.length + 1
decreasing_by all_goals grind

end

/-- The value that a whole text writes, with blanks around it. -/
def parse? (text : String) : Option Json := do
  let value ← readValue text.toList
  if skipBlanks value.rest = [] then some value.value else none

end MiniC.Json
