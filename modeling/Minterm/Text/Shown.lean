import Minterm.Text.Invisible

/-! How a single character is shown in a message: between single quotes, written out by its code
    where it would not be seen. -/

namespace Minterm.Text

/-- The lowercase hexadecimal digits of a number. -/
def hex (n : Nat) : String := String.ofList (Nat.toDigits 16 n)

/-- The character between the quotes. Only the single quote needs a backslash, not the double one. -/
def escaped (c : Char) : String :=
  if c == '\x00' then "\\0"
  else if c == '\t' then "\\t"
  else if c == '\r' then "\\r"
  else if c == '\n' then "\\n"
  else if c == '\\' then "\\\\"
  else if c == '\'' then "\\'"
  else if isInvisible c then "\\u\x7b" ++ hex c.toNat ++ "\x7d"
  else c.toString

def shown (c : Char) : String := "'" ++ escaped c ++ "'"

end Minterm.Text
