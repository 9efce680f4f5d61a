import Minterm.Gate.Basic
import Minterm.Text.Shown
import Minterm.Token

/-! What can go wrong, and how it is worded. A fault may carry the task during which it arose; its
    root is the cause without any task. -/

namespace Minterm

/-- What a caller asked for. -/
inductive Task where
  | parsing
  | karnaugh
  | implicants
  | minimizing
  | conjunctiveForm
  | disjunctiveForm
  | comparing
  | synthesis
  | tabulating
  | gate
  deriving DecidableEq, Repr

inductive Fault where
  /-- A character that no token has, with its offset in bytes of UTF-8. -/
  | unexpectedChar (c : Char) (offset : Nat)
  /-- A token where an operand is due. -/
  | unexpectedToken (token : Token)
  /-- The input ends where an operand is due. -/
  | unexpectedEnd
  /-- Something else, or nothing, where `expected` is due. -/
  | missingToken (expected : Token) (found : Option Token)
  /-- A token after a complete expression. -/
  | trailingToken (token : Token)
  | tooDeep (limit : Nat)
  | unbound (name : String)
  | variableCount (found : Nat)
  | emptyTable
  | rowCounts (inputs outputs : Nat)
  | rowWidth (row expected found : Nat)
  | argumentCount (expected found : Nat)
  | invalidBit (bit : UInt8)
  | gateArity (gate : Gate) (found : Nat)
  | unknownMode (name : String)
  | unknownGate (name : String)
  | during (task : Task) (cause : Fault)
  deriving DecidableEq, Inhabited, Repr

def Task.phrase : Task → String
  | .parsing => "parsing expression"
  | .karnaugh => "building Karnaugh map"
  | .implicants => "finding prime implicants"
  | .minimizing => "minimizing expression"
  | .conjunctiveForm => "converting to CNF"
  | .disjunctiveForm => "converting to DNF"
  | .comparing => "checking equivalence"
  | .synthesis => "building mapping"
  | .tabulating => "building truth table"
  | .gate => "applying gate"

namespace Fault

def quoted (s : String) : String := "'" ++ s ++ "'"

/-- The wording of a fault, with its tasks in front, the outermost first. -/
def message : Fault → String
  | .unexpectedChar c offset =>
    "unexpected character " ++ Text.shown c ++ " at offset " ++ offset.repr
  | .unexpectedToken token => "unexpected token " ++ quoted token.text
  | .unexpectedEnd => "unexpected end of input"
  | .missingToken expected found =>
    "expected " ++ quoted expected.text ++ ", found " ++
      match found with
      | some token => quoted token.text
      | none => "end of input"
  | .trailingToken token => "unexpected trailing token " ++ quoted token.text
  | .tooDeep limit => "expression is nested deeper than " ++ limit.repr ++ " levels"
  | .unbound name => "variable " ++ quoted name ++ " is not assigned"
  | .variableCount found =>
    "unsupported number of variables: " ++ found.repr ++ " (expected 2, 3 or 4)"
  | .emptyTable => "truth table is empty"
  | .rowCounts inputs outputs =>
    "inputs have " ++ inputs.repr ++ " rows but outputs have " ++ outputs.repr
  | .rowWidth row expected found =>
    "row " ++ row.repr ++ " has width " ++ found.repr ++ ", expected " ++ expected.repr
  | .argumentCount expected found =>
    "expected " ++ expected.repr ++ " arguments, got " ++ found.repr
  | .invalidBit bit => "invalid binary value " ++ bit.toNat.repr ++ " (expected 0 or 1)"
  | .gateArity gate found =>
    "gate " ++ gate.name ++ " expects " ++ gate.arity.phrase ++ " inputs, got " ++ found.repr
  | .unknownMode name =>
    "invalid mode " ++ quoted name ++ " (expected \"boolean\" or \"binary\")"
  | .unknownGate name => "unknown gate " ++ quoted name
  | .during task cause => "Error " ++ task.phrase ++ ": " ++ cause.message

/-- The cause, without any task. -/
def root : Fault → Fault
  | .during _ cause => cause.root
  | fault => fault

end Fault

/-- Names the task in every fault of a computation. -/
def during {α : Type} (task : Task) : Except Fault α → Except Fault α
  | .ok a => .ok a
  | .error fault => .error (.during task fault)

theorem during_eq_ok {α : Type} {task : Task} {x : Except Fault α} {a : α} : during task x = .ok a ↔ x = .ok a := by
  cases x <;> simp [during]

end Minterm
