import Minterm.Expr.Basic

/-! The text of an expression. `&` binds tighter than `|`, `!` binds tightest, and parentheses stand
    where the tree would otherwise be read differently; a chain is written without parentheses
    whichever way it is nested. The explicit style also encloses the conjunctions under a
    disjunction, so that the clauses and terms of a normal form stand out. -/

namespace Minterm

/-- How many parentheses a printed expression has. -/
inductive Style where
  /-- Only those that precedence asks for. -/
  | canonical
  /-- Also those around a conjunction under a disjunction. -/
  | explicit
  deriving DecidableEq, Repr

namespace Expr

def enclose (wrap : Bool) (text : String) : String :=
  if wrap then "(" ++ text ++ ")" else text

/-- The text of a constant. -/
def litText (b : Bool) : String := if b then "true" else "false"

/-- Below `!` everything but a variable stands in parentheses, constants included. -/
def render (style : Style) : Expr → String
  | .lit b => litText b
  | .var name => name
  | .not x => "!" ++ enclose (!x.isVar) (x.render style)
  | .and a b => enclose a.isOr (a.render style) ++ " & " ++ enclose b.isOr (b.render style)
  | .or a b =>
    enclose (style == .explicit && a.isAnd) (a.render style) ++ " | " ++
      enclose (style == .explicit && b.isAnd) (b.render style)

/-- The text with the fewest parentheses. -/
def text (e : Expr) : String := e.render .canonical

/-- The text with every clause or term of a normal form in parentheses. -/
def explicitText (e : Expr) : String := e.render .explicit

end Expr
end Minterm
