import Minterm.Json.Lexeme

/-! Reading JSON. The reader takes one lexeme at a time and keeps the arrays and objects that are still
    open; how many may be open at once is limited. -/

namespace Minterm.Json

/-- An array or object that waits for the value being read, with what it holds already, the last in
    front. -/
inductive Frame where
  | array (items : List Json)
  | object (fields : List (String × Json)) (name : String)

inductive ReadState where
  /-- A value is due. -/
  | due (outer : List Frame)
  /-- An array has been opened. -/
  | arrayOpen (outer : List Frame)
  /-- An item has been read. -/
  | item (items : List Json) (outer : List Frame)
  /-- An object has been opened. -/
  | objectOpen (outer : List Frame)
  /-- The name of a further field is due. -/
  | nameDue (fields : List (String × Json)) (outer : List Frame)
  /-- The colon after a name is due. -/
  | colonDue (fields : List (String × Json)) (name : String) (outer : List Frame)
  /-- A field has been read. -/
  | field (fields : List (String × Json)) (outer : List Frame)
  /-- The whole value has been read. -/
  | done (value : Json)

namespace ReadState

/-- A value is complete: it goes into the innermost frame. -/
def complete (value : Json) : List Frame → ReadState
  | [] => .done value
  | .array items :: outer => .item (value :: items) outer
  | .object fields name :: outer => .field ((name, value) :: fields) outer

/-- Takes the first lexeme of a value. -/
def beginValue (limit : Nat) (outer : List Frame) : Lexeme → Option ReadState
  | .atom value => some (complete value outer)
  | .mark c =>
    if outer.length < limit then
      if c == '[' then some (.arrayOpen outer)
      else if c == '{' then some (.objectOpen outer)
      else none
    else none

def step (limit : Nat) : ReadState → Lexeme → Option ReadState
  | .due outer, lexeme => beginValue limit outer lexeme
  | .arrayOpen outer, .mark ']' => some (complete (.array []) outer)
  | .arrayOpen outer, lexeme => beginValue limit (.array [] :: outer) lexeme
  | .item items outer, .mark ',' => some (.due (.array items :: outer))
  | .item items outer, .mark ']' => some (complete (.array items.reverse) outer)
  | .objectOpen outer, .mark '}' => some (complete (.object []) outer)
  | .objectOpen outer, .atom (.string name) => some (.colonDue [] name outer)
  | .nameDue fields outer, .atom (.string name) => some (.colonDue fields name outer)
  | .colonDue fields name outer, .mark ':' => some (.due (.object fields name :: outer))
  | .field fields outer, .mark ',' => some (.nameDue fields outer)
  | .field fields outer, .mark '}' => some (complete (.object fields.reverse) outer)
  | _, _ => none

end ReadState

/-- The value that a text spells, if it is JSON with at most `limit` arrays and objects inside one
    another. -/
def read (limit : Nat) (text : String) : Option Json := do
  let lexemes ← lexemes text.toList
  match ← lexemes.foldlM (ReadState.step limit) (.due []) with
  | .done value => some value
  | _ => none

/-- How many arrays and objects may stand inside one another in the text of a tree or a value. -/
def maxNesting : Nat := 127

end Minterm.Json
