/-! JSON values. A number keeps its text, so that `1`, `1.0` and `1e0` remain distinct, and an object
    keeps its fields in the order in which they were written, repetitions included. -/

namespace Minterm

inductive Json where
  | null
  | bool (b : Bool)
  | number (text : String)
  | string (s : String)
  | array (items : List Json)
  | object (fields : List (String × Json))
  deriving Inhabited, Repr

namespace Json

def ofNat (n : Nat) : Json := .number n.repr

/-- The value of a field; of two fields with one name the last counts. -/
def field? (name : String) : Json → Option Json
  | .object fields => fields.reverse.lookup name
  | _ => none

/-- The number that a text of digits stands for. A sign, a fraction or an exponent makes it no natural
    number, whatever its value. -/
def nat? : Json → Option Nat
  | .number text =>
    if text.toList.all Char.isDigit then
      some (text.toList.foldl (fun n c => 10 * n + (c.toNat - '0'.toNat)) 0)
    else none
  | _ => none

end Json
end Minterm
