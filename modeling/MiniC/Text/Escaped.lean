import MiniC.Text.Combining
import MiniC.Text.Ignorable
import MiniC.Text.Unprintable

/-! # Quoted characters and strings in messages

Messages show a character or string between quotes, so that every character of it can be seen:
the quote itself, the backslash and the common controls take a backslash, and a character that
would not show on its own is written by its code point. -/

namespace MiniC.Text

/-- The code point of `c` in lower-case hexadecimal, between `\u` and braces. -/
def codePoint (c : Char) : String :=
  "\\u\x7b" ++ String.ofList (Nat.toDigits 16 c.toNat) ++ "\x7d"

/-- How `c` is written between two of `quote`. -/
def escaped (quote c : Char) : String :=
  if c = '\x00' then "\\0"
  else if c = '\t' then "\\t"
  else if c = '\r' then "\\r"
  else if c = '\n' then "\\n"
  else if c = '\\' then "\\\\"
  else if c = quote then String.ofList ['\\', c]
  else if isCombining c || isIgnorable c || isUnprintable c then codePoint c
  else String.ofList [c]

def quotedChar (c : Char) : String := "'" ++ escaped '\'' c ++ "'"

def quotedString (s : String) : String :=
  "\"" ++ String.join (s.toList.map (escaped '"')) ++ "\""

end MiniC.Text
