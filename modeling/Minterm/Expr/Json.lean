import Minterm.Expr.Basic
import Minterm.Json.Reader
import Minterm.Json.Writer

/-! Expressions as JSON: an object whose only field names the kind of the node and holds its content. -/

namespace Minterm.Expr

def toJson : Expr → Json
  | .lit b => .object [("Literal", .bool b)]
  | .var name => .object [("Variable", .string name)]
  | .not x => .object [("Not", x.toJson)]
  | .and a b => .object [("And", .array [a.toJson, b.toJson])]
  | .or a b => .object [("Or", .array [a.toJson, b.toJson])]

/-- The expression that a JSON value stands for, if it has exactly that form. -/
def ofJson? : Json → Option Expr
  | .object [("Literal", .bool b)] => some (.lit b)
  | .object [("Variable", .string name)] => some (.var name)
  | .object [("Not", x)] => do
    let x ← ofJson? x
    return .not x
  | .object [("And", .array [a, b])] => do
    let a ← ofJson? a
    let b ← ofJson? b
    return .and a b
  | .object [("Or", .array [a, b])] => do
    let a ← ofJson? a
    let b ← ofJson? b
    return .or a b
  | _ => none

theorem ofJson?_not {v : Json} {x : Expr} (hx : ofJson? v = some x) : ofJson? (.object [("Not", v)]) = some (.not x) := by
  simp [ofJson?, hx]

theorem ofJson?_and {v w : Json} {a b : Expr} (ha : ofJson? v = some a) (hb : ofJson? w = some b) :
    ofJson? (.object [("And", .array [v, w])]) = some (.and a b) := by
  simp [ofJson?, ha, hb]

theorem ofJson?_or {v w : Json} {a b : Expr} (ha : ofJson? v = some a) (hb : ofJson? w = some b) :
    ofJson? (.object [("Or", .array [v, w])]) = some (.or a b) := by
  simp [ofJson?, ha, hb]

/-- A way to write expressions as JSON and to read them again. It has two layers: values for expressions, and
    texts for values. -/
structure Codec where
  encode : Expr → Json
  decode : Json → Option Expr
  write : Json → String
  read : String → Option Json

namespace Codec

/-- The text of the JSON value of an expression. -/
def text (codec : Codec) (e : Expr) : String := codec.write (codec.encode e)

/-- The expression in a JSON text. -/
def ofText? (codec : Codec) (text : String) : Option Expr := do
  let value ← codec.read text
  codec.decode value

/-- Values with tags, texts without blanks, and a limit on the nesting of what is read. -/
def standard : Codec := ⟨toJson, ofJson?, Json.compact, Json.read Json.maxNesting⟩

end Codec

def jsonText (e : Expr) : String := Codec.standard.text e

def ofJsonText? (text : String) : Option Expr := Codec.standard.ofText? text

end Minterm.Expr
