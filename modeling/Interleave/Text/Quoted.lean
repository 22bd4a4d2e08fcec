/-
# Quoted text

A text in double quotes. The quote and the backslash are written after a
backslash, line ends, tabs and the zero character by their letters, and every
other hidden character by its code point in hexadecimal.
-/
import Interleave.Text.Hidden

namespace Interleave

namespace Text

/-- The digits of `n` in base sixteen, without leading zeros. -/
def hex (n : Nat) : String := String.ofList (Nat.toDigits 16 n)

/-- How a character is written between quotes. -/
def escape (c : Char) : String :=
  if c = '\x00' then "\\0"
  else if c = '\t' then "\\t"
  else if c = '\r' then "\\r"
  else if c = '\n' then "\\n"
  else if c = '\\' then "\\\\"
  else if c = '"' then "\\\""
  else if isHidden c then "\\u\x7b" ++ hex c.toNat ++ "\x7d"
  else String.singleton c

/-- The text between double quotes. -/
def quoted (s : String) : String := "\"" ++ String.join (s.toList.map escape) ++ "\""

def quotedList (l : List String) : String :=
  "[" ++ String.intercalate ", " (l.map quoted) ++ "]"

/-- An optional value, its presence spelled out. -/
def option (write : α → String) : Option α → String
  | some a => "Some(" ++ write a ++ ")"
  | none => "None"

end Text

end Interleave
