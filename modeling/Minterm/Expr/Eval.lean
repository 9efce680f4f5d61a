import Minterm.Expr.Basic
import Minterm.Fault

/-! The value of an expression under a partial assignment of its variables. Both operands of a
    connective are always evaluated, the left one first, so that the fault of an incomplete
    assignment names the first variable without a value. -/

namespace Minterm.Expr

def eval (value? : String → Option Bool) : Expr → Except Fault Bool
  | .lit b => .ok b
  | .var name =>
    match value? name with
    | some b => .ok b
    | none => .error (.unbound name)
  | .not x => do
    let b ← x.eval value?
    return !b
  | .and a b => do
    let left ← a.eval value?
    let right ← b.eval value?
    return left && right
  | .or a b => do
    let left ← a.eval value?
    let right ← b.eval value?
    return left || right

end Minterm.Expr
