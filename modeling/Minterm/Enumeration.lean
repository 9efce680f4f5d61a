import Minterm.Assignment

/-! The assignments of a list of variables one at a time. An enumeration keeps the row of bits that is due. Once
    it has been given, the row is counted up in place, from the last bit towards the front; when the carry
    runs off the front, nothing is due any more. -/

namespace Minterm

/-- Turns the bits in front of a position over, from the last one towards the front, until one becomes true. If
    none does, the carry has run off the front and there is no row. -/
def ripple (row : List Bool) : Nat → Option (List Bool)
  | 0 => none
  | i + 1 =>
    let turned := row.modify i (!·)
    if turned[i]? = some true then some turned else ripple turned i

/-- The row that follows in binary order. -/
def increment (row : List Bool) : Option (List Bool) := ripple row row.length

/-- An enumeration of the assignments of a list of variables. -/
structure Enumeration where
  vars : List String
  /-- The row that is due, if any is left. -/
  due : Option (List Bool)
  deriving DecidableEq, Repr

namespace Enumeration

/-- All-false is due first. -/
def start (vars : List String) : Enumeration := ⟨vars, some (List.replicate vars.length false)⟩

/-- The assignment that is due, and the enumeration after it. -/
def next : Enumeration → Option (Bindings Bool) × Enumeration
  | ⟨vars, none⟩ => (none, ⟨vars, none⟩)
  | ⟨vars, some row⟩ => (some (assign vars row), ⟨vars, increment row⟩)

end Enumeration
end Minterm
