/-! The tokens of the expression grammar: three operators, two parentheses and identifiers. The words
    `true` and `false` are identifiers here; the parser reads them as constants. -/

namespace Minterm

inductive Token where
  | bang
  | amp
  | bar
  | lparen
  | rparen
  | ident (name : String)
  deriving DecidableEq, Inhabited, Repr

namespace Token

/-- Identifiers consist of ASCII letters, ASCII digits and underscores. -/
def isIdentChar (c : Char) : Bool := c.isAlphanum || c == '_'

/-- The token that a single character stands for on its own. -/
def ofChar? : Char → Option Token
  | '!' => some .bang
  | '&' => some .amp
  | '|' => some .bar
  | '(' => some .lparen
  | ')' => some .rparen
  | _ => none

/-- The characters of a token as they stand in the input. -/
def text : Token → String
  | .bang => "!"
  | .amp => "&"
  | .bar => "|"
  | .lparen => "("
  | .rparen => ")"
  | .ident name => name

end Token
end Minterm
