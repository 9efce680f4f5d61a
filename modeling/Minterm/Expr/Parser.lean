import Minterm.Expr.Basic
import Minterm.Token.Lexer

/-! Reading an expression from its tokens. `!` binds tightest, then `&`, then `|`; chains nest to the
    left. The reader looks at one token at a time and keeps the operands that wait for a connective,
    one level for each open parenthesis, so that whether a token is accepted depends on the tokens
    before it and on nothing else. A tree that would be higher than the limit, counting parentheses
    and negations around it, is refused. -/

namespace Minterm
namespace Parser

/-- An expression that has been read, with its height. -/
structure Operand where
  expr : Expr
  height : Nat
  deriving DecidableEq, Repr

/-- A level of parentheses whose next operand is still to come. -/
structure Level where
  /-- How many parentheses and negations stand around the level. -/
  depth : Nat
  /-- The left operand of a `|` that waits for its right one. -/
  sum : Option Operand
  /-- The left operand of a `&` that waits for its right one. -/
  product : Option Operand
  /-- How many `!` stand before the next operand. -/
  bangs : Nat
  deriving DecidableEq, Repr

/-- What has been read so far, with the levels around the innermost one. -/
inductive State where
  /-- An operand is due. -/
  | due (level : Level) (outer : List Level)
  /-- An operand has just been read, as the last factor of `product`. -/
  | read (depth : Nat) (sum : Option Operand) (product : Operand) (outer : List Level)
  deriving DecidableEq, Repr

def start : State := .due ⟨0, none, none, 0⟩ []

def leaf (name : String) : Expr :=
  if name = "true" then .lit true else if name = "false" then .lit false else .var name

/-- Puts `n` negations around an operand. -/
def Operand.negate (x : Operand) : Nat → Operand
  | 0 => x
  | n + 1 => negate ⟨.not x.expr, x.height + 1⟩ n

/-- Refuses a tree of the given height below `depth` levels if it exceeds the limit. -/
def guardHeight (limit depth height : Nat) : Except Fault Unit :=
  if depth + height ≤ limit then .ok () else .error (.tooDeep limit)

/-- Joins an operand to the one that waits on its left, if any. -/
def join (limit depth : Nat) (connect : Expr → Expr → Expr) (left : Option Operand) (right : Operand) :
    Except Fault Operand :=
  match left with
  | none => .ok right
  | some left => do
    let height := max left.height right.height + 1
    guardHeight limit depth height
    return ⟨connect left.expr right.expr, height⟩

/-- The operand due at a level is complete: negate it and join it to the product before it. -/
def Level.accept (limit : Nat) (level : Level) (outer : List Level) (x : Operand) : Except Fault State := do
  let product ← join limit level.depth .and level.product (x.negate level.bangs)
  return .read level.depth level.sum product outer

def step (limit : Nat) : State → Token → Except Fault State
  | .due level outer, .bang => do
    guardHeight limit (level.depth + level.bangs + 1) 1
    return .due { level with bangs := level.bangs + 1 } outer
  | .due level outer, .lparen => do
    guardHeight limit (level.depth + level.bangs + 1) 1
    return .due ⟨level.depth + level.bangs + 1, none, none, 0⟩ (level :: outer)
  | .due level outer, .ident name => level.accept limit outer ⟨leaf name, 1⟩
  | .due _ _, token => .error (.unexpectedToken token)
  | .read depth sum product outer, .amp => .ok (.due ⟨depth, sum, some product, 0⟩ outer)
  | .read depth sum product outer, token => do
    let sum ← join limit depth .or sum product
    match token, outer with
    | .bar, _ => return .due ⟨depth, some sum, none, 0⟩ outer
    | .rparen, level :: outer => level.accept limit outer sum
    | _, [] => .error (.trailingToken token)
    | _, _ :: _ => .error (.missingToken .rparen (some token))

/-- The expression that has been read, if it is complete. -/
def finish (limit : Nat) : State → Except Fault Expr
  | .due _ _ => .error .unexpectedEnd
  | .read depth sum product outer => do
    let sum ← join limit depth .or sum product
    match outer with
    | [] => return sum.expr
    | _ :: _ => .error (.missingToken .rparen none)

def run (limit : Nat) (state : State) (tokens : List Token) : Except Fault State :=
  tokens.foldlM (step limit) state

end Parser

namespace Expr

/-- How high a tree may be, with the parentheses and negations around its parts counted. -/
def maxDepth : Nat := 512

/-- The expression that a list of tokens spells, under a limit on its height. -/
def ofTokens (limit : Nat) (tokens : List Token) : Except Fault Expr := do
  let state ← Parser.run limit Parser.start tokens
  Parser.finish limit state

/-- The expression that a text spells. A character outside the alphabet is reported before any fault
    in the order of the tokens. -/
def ofText (text : String) : Except Fault Expr := do
  let tokens ← Token.ofText text
  ofTokens maxDepth tokens

end Expr
end Minterm
