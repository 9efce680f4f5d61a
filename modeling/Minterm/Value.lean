import Minterm.Fault

/-! Truth values as callers write them, `true` and `false` or `1` and `0`, and the mode in which an
    answer is presented. -/

namespace Minterm

inductive Value where
  | bool (b : Bool)
  /-- A bit; only `0` and `1` have a truth value. -/
  | bit (n : UInt8)
  deriving DecidableEq, Inhabited, Repr

namespace Value

def truth : Value → Except Fault Bool
  | .bool b => .ok b
  | .bit 0 => .ok false
  | .bit 1 => .ok true
  | .bit n => .error (.invalidBit n)

def isBit : Value → Bool
  | .bool _ => false
  | .bit _ => true

def text : Value → String
  | .bool b => if b then "true" else "false"
  | .bit n => n.toNat.repr

/-- The truth values of a list, or the first fault in it. -/
def truths (values : List Value) : Except Fault (List Bool) := values.mapM truth

end Value

/-- How a truth value is presented. -/
inductive Mode where
  | boolean
  | binary
  deriving DecidableEq, Inhabited, Repr

namespace Mode

def present : Mode → Bool → Value
  | .boolean, b => .bool b
  | .binary, b => .bit b.toUInt8

/-- Binary if there are values and all of them are bits. -/
def ofValues (values : List Value) : Mode :=
  if !values.isEmpty && values.all Value.isBit then .binary else .boolean

def name : Mode → String
  | .boolean => "boolean"
  | .binary => "binary"

def ofName (name : String) : Except Fault Mode :=
  if name = "boolean" then .ok .boolean
  else if name = "binary" then .ok .binary
  else .error (.unknownMode name)

end Mode
end Minterm
