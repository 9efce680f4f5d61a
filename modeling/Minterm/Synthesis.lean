import Minterm.ColumnName
import Minterm.Minimize
import Minterm.TruthTable

/-! Functions synthesized from truth tables. Every output column becomes an expression over column names:
    the sum of the minterms of the rows where it is `1`, minimized if a Karnaugh map of that many
    inputs exists and simplified otherwise. -/

namespace Minterm

/-- A function with named inputs and one expression for each output. -/
structure VectorFunction where
  inputs : List String
  outputs : List Expr
  /-- How results are presented. -/
  mode : Mode
  deriving DecidableEq, Repr

/-- The product that is true for one row of inputs only. -/
def minterm (names : List String) (row : List Bool) : Expr :=
  Expr.andAll ((names.zip row).map fun (name, b) => Literal.toExpr ⟨name, b⟩)

/-- An expression that is true at the rows of `inputs` where `column` is `1` and at no other row, unless
    the column is `1` throughout. -/
def synthesizeColumn (names : List String) (inputs : List (List Bool)) (column : List Bool) : Except Fault Expr :=
  if column.all (!·) then .ok (.lit false)
  else if column.all id then .ok (.lit true)
  else
    let chosen := (inputs.zip column).filter (·.2)
    let sum := Expr.orAll (chosen.map fun (row, _) => minterm names row)
    if 2 ≤ names.length ∧ names.length ≤ 4 then sum.minimize names else .ok sum.simplify

namespace VectorFunction

def synthesize (table : TruthTable) (mode : Mode) : Except Fault VectorFunction := do
  let names := (List.range table.inputWidth).map columnName
  let columns := (List.range table.outputWidth).map table.outputColumn
  let outputs ← columns.mapM (synthesizeColumn names table.inputs)
  return ⟨names, outputs, mode⟩

/-- Synthesizes the rows of a caller. Results are bits if all outputs are given as bits. -/
def ofRows (inputs outputs : List (List Value)) : Except Fault VectorFunction := do
  let table ← TruthTable.ofRows inputs outputs
  synthesize table (Mode.ofValues outputs.flatten)

variable (f : VectorFunction)

def arity : Nat := f.inputs.length

/-- The outputs for one row of arguments. -/
def call (arguments : List Bool) : Except Fault (List Bool) :=
  if arguments.length ≠ f.arity then .error (.argumentCount f.arity arguments.length)
  else f.outputs.mapM fun e => e.eval (firstBit? f.inputs arguments)

/-- The outputs for one row of callers' values. An invalid bit is reported before a wrong number of
    arguments. -/
def callValues (arguments : List Value) : Except Fault (List Value) := do
  let arguments ← Value.truths arguments
  let results ← f.call arguments
  return results.map f.mode.present

end VectorFunction
end Minterm
