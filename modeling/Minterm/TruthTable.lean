import Minterm.Assignment
import Minterm.Value

/-! Truth tables with any number of outputs, tabulated from an expression or checked from the rows that a
    caller gives. -/

namespace Minterm

structure TruthTable where
  inputs : List (List Bool)
  outputs : List (List Bool)
  deriving DecidableEq, Repr

namespace TruthTable

/-- The table of an expression over a list of variables, in binary order. Where the list repeats a name,
    all its columns show the bit of the last one. -/
def ofExpr (e : Expr) (vars : List String) : Except Fault TruthTable := do
  let rows ← foldAssignments (fun rows values => do
    let value ← e.eval values.value?
    return (vars.map fun name => (values.value? name).getD false, [value]) :: rows) [] vars []
  return ⟨rows.reverse.map (·.1), rows.reverse.map (·.2)⟩

/-- The truth values of rows that all have the given width. Row by row, the width is checked before the
    values. -/
def truthRows (width : Nat) (index : Nat) : List (List Value) → Except Fault (List (List Bool))
  | [] => .ok []
  | row :: rows => do
    if row.length ≠ width then throw (.rowWidth index width row.length)
    let first ← Value.truths row
    let rest ← truthRows width (index + 1) rows
    return first :: rest

/-- The truth values of rows that all are as wide as the first one, which must not be empty. -/
def truthsOfRows : List (List Value) → Except Fault (List (List Bool))
  | [] | [] :: _ => .error .emptyTable
  | row :: rows => truthRows row.length 0 (row :: rows)

/-- Checks the rows of a caller: the counts first, then the inputs, then the outputs. -/
def ofRows (inputs outputs : List (List Value)) : Except Fault TruthTable :=
  if inputs.isEmpty || outputs.isEmpty then .error .emptyTable
  else if inputs.length ≠ outputs.length then .error (.rowCounts inputs.length outputs.length)
  else do
    let inputs ← truthsOfRows inputs
    let outputs ← truthsOfRows outputs
    return ⟨inputs, outputs⟩

variable (table : TruthTable)

def rows : Nat := table.inputs.length

def inputWidth : Nat := (table.inputs.head?.map List.length).getD 0

def outputWidth : Nat := (table.outputs.head?.map List.length).getD 0

/-- Output number `j` of every row. -/
def outputColumn (j : Nat) : List Bool := table.outputs.map fun row => row[j]?.getD false

end TruthTable
end Minterm
