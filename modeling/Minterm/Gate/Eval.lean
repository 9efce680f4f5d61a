import Minterm.Value

/-! What gates compute, on truth values and on the values of callers, and how they are found by name. -/

namespace Minterm.Gate

/-- The output of a gate, if it takes that many inputs. -/
def output? : Gate → List Bool → Option Bool
  | .not, [a] => some (!a)
  | .cond, [a, b] => some (!a || b)
  | .ncond, [a, b] => some (a && !b)
  | .conv, [a, b] => some (a || !b)
  | .nconv, [a, b] => some (!a && b)
  | .bicond, [a, b] => some (a == b)
  | .nbicond, [a, b] => some (a != b)
  | .and, a :: b :: rest => some ((a :: b :: rest).all id)
  | .or, a :: b :: rest => some ((a :: b :: rest).any id)
  | .xor, a :: b :: rest => some ((a :: b :: rest).count true % 2 == 1)
  | .nand, a :: b :: rest => some (!(a :: b :: rest).all id)
  | .nor, a :: b :: rest => some (!(a :: b :: rest).any id)
  | .xnor, a :: b :: rest => some (!((a :: b :: rest).count true % 2 == 1))
  | _, _ => none

def eval (gate : Gate) (inputs : List Bool) : Except Fault Bool :=
  match gate.output? inputs with
  | some b => .ok b
  | none => .error (.gateArity gate inputs.length)

/-- Applies the gate to callers' values. An invalid bit is reported before a wrong number of inputs. -/
def apply (gate : Gate) (mode : Mode) (inputs : List Value) : Except Fault Value := do
  let inputs ← Value.truths inputs
  let output ← gate.eval inputs
  return mode.present output

/-- The gate of a name, whose ASCII letters may be of either case. -/
def ofName (name : String) : Except Fault Gate :=
  match all.find? fun gate => gate.name == name.toUpper with
  | some gate => .ok gate
  | none => .error (.unknownGate name)

end Minterm.Gate
