import Minterm.Json.Basic
import Minterm.Text.Shown

/-! Writing JSON without blanks. Only quotes, backslashes and control characters below the space are
    escaped. -/

namespace Minterm.Json

def escaped (c : Char) : String :=
  if c == '"' then "\\\""
  else if c == '\\' then "\\\\"
  else if c == '\x08' then "\\b"
  else if c == '\x0c' then "\\f"
  else if c == '\n' then "\\n"
  else if c == '\r' then "\\r"
  else if c == '\t' then "\\t"
  else if c.toNat < 0x20 then
    "\\u" ++ (if c.toNat < 0x10 then "000" else "00") ++ Text.hex c.toNat
  else c.toString

def quote (s : String) : String := "\"" ++ String.join (s.toList.map escaped) ++ "\""

mutual

def compact : Json → String
  | .null => "null"
  | .bool b => if b then "true" else "false"
  | .number text => text
  | .string s => quote s
  | .array items => "[" ++ ",".intercalate (compactItems items) ++ "]"
  | .object fields => "\x7b" ++ ",".intercalate (compactFields fields) ++ "\x7d"

def compactItems : List Json → List String
  | [] => []
  | item :: items => compact item :: compactItems items

def compactFields : List (String × Json) → List String
  | [] => []
  | (name, value) :: fields => (quote name ++ ":" ++ compact value) :: compactFields fields

end

end Minterm.Json
