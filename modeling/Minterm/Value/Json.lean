import Minterm.Json.Reader
import Minterm.Value

/-! Truth values as JSON: `true`, `false` or a whole number below 256 written in digits only. -/

namespace Minterm.Value

def toJson : Value → Json
  | .bool b => .bool b
  | .bit n => .ofNat n.toNat

def ofJson? : Json → Option Value
  | .bool b => some (.bool b)
  | .number text =>
    match (Json.number text).nat? with
    | some n => if n < 256 then some (.bit (UInt8.ofNat n)) else none
    | none => none
  | _ => none

/-- The truth value in a JSON text. -/
def ofJsonText? (text : String) : Option Value := do
  let value ← Json.read Json.maxNesting text
  ofJson? value

end Minterm.Value
