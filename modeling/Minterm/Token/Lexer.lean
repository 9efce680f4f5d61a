import Minterm.Fault
import Minterm.Text.Blank

/-! Splitting a text into tokens. Blanks separate tokens and are dropped; an identifier extends as far
    as it can. -/

namespace Minterm.Token

/-- The tokens of `cs`, whose first character has the given offset in the whole text. An identifier
    advances the offset by its length, since its characters take one byte each. -/
def scan (offset : Nat) : List Char → Except Fault (List Token)
  | [] => .ok []
  | c :: cs =>
    if Text.isBlank c then scan (offset + c.utf8Size) cs
    else if isIdentChar c then
      let word := c :: cs.takeWhile isIdentChar
      (scan (offset + word.length) (cs.dropWhile isIdentChar)).map (.ident (String.ofList word) :: ·)
    else
      match ofChar? c with
      | some token => (scan (offset + c.utf8Size) cs).map (token :: ·)
      | none => .error (.unexpectedChar c offset)
termination_by cs => cs.length
decreasing_by
  all_goals
    have := (List.dropWhile_sublist (l := cs) isIdentChar).length_le
    grind

/-- The tokens of a text, or the first character that belongs to none. -/
def ofText (text : String) : Except Fault (List Token) := scan 0 text.toList

end Minterm.Token
