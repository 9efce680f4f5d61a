import Minterm.Dot.Machine
import Minterm.Token

/-! Splitting a text in the DOT language into lexemes. What a character is read as depends on what the reader is
    in the middle of. -/

namespace Minterm.Dot

inductive Lexeme where
  /-- One of `\x7b \x7d [ ] = , ;`. -/
  | mark (c : Char)
  /-- `--`, between the ends of an edge. -/
  | line
  | word (text : String)
  /-- What stands between double quotes, without the backslashes in front of other characters. -/
  | quoted (text : String)
  deriving DecidableEq, Repr

/-- What a reader is in the middle of, and what it has read of it. -/
inductive Mode where
  | between
  /-- Behind the first character of `--`. -/
  | line
  | word (read : List Char)
  | quoted (read : List Char)
  /-- Behind a backslash between quotes. -/
  | escape (read : List Char)
  deriving DecidableEq, Repr

def isBlank (c : Char) : Bool := c == ' ' || c == '\n'

def isMark (c : Char) : Bool := ['{', '}', '[', ']', '=', ',', ';'].contains c

/-- Reads a character that does not continue anything. -/
def Mode.start? (c : Char) : Option (Mode × List Lexeme) :=
  if isBlank c then some (.between, [])
  else if isMark c then some (.between, [.mark c])
  else if c == '-' then some (.line, [])
  else if c == '"' then some (.quoted [], [])
  else if Token.isIdentChar c then some (.word [c], [])
  else none

/-- Reads a character. It may complete a lexeme, or two of them if a mark ends a word. -/
def Mode.step? : Mode → Char → Option (Mode × List Lexeme)
  | .between, c => start? c
  | .line, c => if c == '-' then some (.between, [.line]) else none
  | .word read, c =>
    if Token.isIdentChar c then some (.word (read ++ [c]), [])
    else (start? c).map fun (mode, found) => (mode, .word (String.ofList read) :: found)
  | .quoted read, c =>
    if c == '"' then some (.between, [.quoted (String.ofList read)])
    else if c == '\\' then some (.escape read, [])
    else some (.quoted (read ++ [c]), [])
  | .escape read, c => some (.quoted (read ++ [c]), [])

/-- The lexemes of a text that does not end in the middle of one. -/
def lexemes? (text : String) : Option (List Lexeme) := readAll? Mode.step? .between text.toList

end Minterm.Dot
