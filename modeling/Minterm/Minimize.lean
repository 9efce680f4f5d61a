import Minterm.Expr.Simplify
import Minterm.Karnaugh.Implicant

/-! Minimization: the implicants that a cover chooses are joined by `|`, and the sum is simplified, which
    factors out what its terms share. -/

namespace Minterm.Expr

/-- The minimized expression over two, three or four variables; without variables it is the value. -/
def minimizeWith (e : Expr) (vars : List String) (cover : Cover) : Except Fault Expr :=
  if vars.isEmpty then do
    let value ← e.eval fun _ => none
    return .lit value
  else do
    let map ← KarnaughMap.ofExpr e vars
    let implicants := map.implicants cover
    if implicants.isEmpty then return .lit false
    else if implicants.any (·.literals.isEmpty) then return .lit true
    else return (orAll (implicants.map Implicant.toExpr)).simplify

def minimize (e : Expr) (vars : List String) : Except Fault Expr := e.minimizeWith vars Cover.greedy

end Minterm.Expr
