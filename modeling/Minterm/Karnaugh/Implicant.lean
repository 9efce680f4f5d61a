import Minterm.Karnaugh.Candidate
import Minterm.Karnaugh.Cover
import Minterm.Expr.Printer

/-! Implicants: groups of cells together with the product term that is true exactly there. -/

namespace Minterm

/-- A variable or its negation. -/
structure Literal where
  name : String
  positive : Bool
  deriving DecidableEq, Repr

namespace Literal

def text (l : Literal) : String := if l.positive then l.name else "!" ++ l.name

def toExpr (l : Literal) : Expr := if l.positive then .var l.name else .not (.var l.name)

end Literal

/-- A group of cells and the variables that have one value on all of them. -/
structure Implicant where
  cells : CellSet
  literals : List Literal
  deriving DecidableEq, Repr

namespace KarnaughMap

/-- The value that variable number `i` has on every cell of a set, if there is one. -/
def decidedBit? (map : KarnaughMap) (cells : CellSet) (i : Nat) : Option Bool :=
  match cells with
  | [] => none
  | first :: rest =>
    let b := map.layout.bit first i
    if rest.all fun cell => map.layout.bit cell i == b then some b else none

/-- The variables with one value on a set of cells, in the order of the variables. -/
def literals (map : KarnaughMap) (cells : CellSet) : List Literal :=
  map.vars.zipIdx.filterMap fun (name, i) => (map.decidedBit? cells i).map fun b => ⟨name, b⟩

def implicant (map : KarnaughMap) (cells : CellSet) : Implicant := ⟨cells, map.literals cells⟩

end KarnaughMap

namespace Implicant

def size (p : Implicant) : Nat := p.cells.length

/-- The product term as a text; without literals it is `true`. -/
def term (p : Implicant) : String :=
  if p.literals.isEmpty then Expr.litText true else " & ".intercalate (p.literals.map Literal.text)

/-- The product term as an expression. -/
def toExpr (p : Implicant) : Expr := Expr.andAll (p.literals.map Literal.toExpr)

end Implicant

namespace KarnaughMap

/-- The implicants that a cover chooses, in the order of their terms. -/
def implicants (map : KarnaughMap) (cover : Cover) : List Implicant :=
  ((cover.chosen map.candidates map.ones).map map.implicant).mergeSort fun p q => decide (p.term ≤ q.term)

/-- The prime implicants: those of the greedy cover. -/
def primeImplicants (map : KarnaughMap) : List Implicant := map.implicants Cover.greedy

end KarnaughMap

/-- The terms of the prime implicants of an expression over a list of variables. -/
def Expr.primeTerms (e : Expr) (vars : List String) : Except Fault (List String) := do
  let map ← KarnaughMap.ofExpr e vars
  return map.primeImplicants.map Implicant.term

end Minterm
