import Minterm.Expr.Json
import Minterm.Expr.NormalForm
import Minterm.Expr.Parser
import Minterm.Gate.Eval
import Minterm.Synthesis

/-! Questions about expressions given as texts. Every fault names the task that was asked for. -/

namespace Minterm.Query

/-- The value of a simplified expression under the bindings of a caller, in the mode of these bindings.
    Variables that simplification removes need no binding. -/
def evaluateWithin (limit : Nat) (text : String) (bindings : Bindings Value) : Except Fault Value :=
  during .parsing do
    let e ← Expr.ofText text
    let truths ← Value.truths bindings.values
    let value ← (e.simplifyWithin limit).eval (Bindings.value? (bindings.names.zip truths))
    return (Mode.ofValues bindings.values).present value

/-- The expression after at most `limit` passes of simplification. -/
def simplifiedWithin (limit : Nat) (text : String) : Except Fault Expr :=
  during .parsing do
    let e ← Expr.ofText text
    return e.simplifyWithin limit

/-- The JSON text of that expression. -/
def jsonWithin (limit : Nat) (text : String) (codec : Expr.Codec := .standard) : Except Fault String :=
  (simplifiedWithin limit text).map codec.text

def simplified (text : String) : Except Fault Expr := simplifiedWithin Expr.maxPasses text

/-- The map of an expression that has been read without a task of its own. -/
def map (text : String) (vars : List String) : Except Fault KarnaughMap := do
  let e ← Expr.ofText text
  KarnaughMap.ofExpr e vars

def grid (text : String) (vars : List String) : Except Fault (List (List Bool)) :=
  during .karnaugh do
    let map ← map text vars
    return map.grid

def primeTerms (text : String) (vars : List String) : Except Fault (List String) :=
  during .implicants do
    let e ← Expr.ofText text
    e.primeTerms vars

def minimized (text : String) (vars : List String) : Except Fault String :=
  during .minimizing do
    let e ← Expr.ofText text
    let minimal ← e.minimize vars
    return minimal.text

def normalForm (form : Form) (text : String) : Except Fault String :=
  during (match form with | .cnf => .conjunctiveForm | .dnf => .disjunctiveForm) do
    let e ← Expr.ofText text
    return (e.simplify.toForm form).explicitText

def equivalent (left right : String) : Except Fault Bool :=
  during .comparing do
    let a ← Expr.ofText left
    let b ← Expr.ofText right
    a.isEquivalent b

def truthTable (text : String) (vars : List String) : Except Fault TruthTable :=
  during .tabulating do
    let e ← Expr.ofText text
    TruthTable.ofExpr e vars

def synthesize (inputs outputs : List (List Value)) : Except Fault VectorFunction :=
  during .synthesis (VectorFunction.ofRows inputs outputs)

def applyGate (name : String) (mode : Mode) (inputs : List Value) : Except Fault Value :=
  during .gate do
    let gate ← Gate.ofName name
    gate.apply mode inputs

end Minterm.Query
