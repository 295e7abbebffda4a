/-! # JSON values and their indented text

The values are those that reports are made of, and one more for the rest: `other` stands for a
number that is not a natural, a string that is not Unicode text because half of a surrogate pair is
missing, and an object with such a key. The text of `other` is one of those numbers, so every value
has a text that means it. -/

namespace MiniC

inductive Json where
  | null
  | bool (value : Bool)
  | nat (value : Nat)
  | string (value : String)
  | list (items : List Json)
  | object (members : List (String × Json))
  | other
  deriving Repr

namespace Json

/-- A character inside of a JSON string: quote, backslash and controls take a backslash, all others
stand for themselves. -/
def escaped (c : Char) : List Char :=
  match c with
  | '"' => ['\\', '"']
  | '\\' => ['\\', '\\']
  | '\x08' => ['\\', 'b']
  | '\x0c' => ['\\', 'f']
  | '\n' => ['\\', 'n']
  | '\r' => ['\\', 'r']
  | '\t' => ['\\', 't']
  | c =>
    if c.toNat < 0x20 then
      ['\\', 'u', '0', '0', Nat.digitChar (c.toNat / 16), Nat.digitChar (c.toNat % 16)]
    else [c]

/-- A JSON string with its quotes. -/
def quoted (s : String) : String := "\"" ++ String.ofList (s.toList.flatMap escaped) ++ "\""

/-- A line end and two blanks a level. -/
def newline (depth : Nat) : String := "\n" ++ String.ofList (List.replicate (2 * depth) ' ')

mutual

/-- The text of a value that stands `depth` levels deep. A list or object has one entry a line, and
is written on one line if it is empty. -/
def render (depth : Nat) : Json → String
  | .null => "null"
  | .bool true => "true"
  | .bool false => "false"
  | .nat n => n.repr
  | .string s => quoted s
  | .list [] => "[]"
  | .list items => "[" ++ renderItems (depth + 1) items ++ newline depth ++ "]"
  | .object [] => "\x7b\x7d"
  | .object members => "\x7b" ++ renderMembers (depth + 1) members ++ newline depth ++ "\x7d"
  | .other => "-0"

/-- The entries of a list, each on a new line. -/
def renderItems (depth : Nat) : List Json → String
  | [] => ""
  | [item] => newline depth ++ render depth item
  | item :: more => newline depth ++ render depth item ++ "," ++ renderItems depth more

/-- The entries of an object, each on a new line. -/
def renderMembers (depth : Nat) : List (String × Json) → String
  | [] => ""
  | [(key, value)] => newline depth ++ quoted key ++ ": " ++ render depth value
  | (key, value) :: more =>
    newline depth ++ quoted key ++ ": " ++ render depth value ++ "," ++ renderMembers depth more

end

/-- The indented text of a value. -/
def pretty (j : Json) : String := j.render 0

end Json

end MiniC
