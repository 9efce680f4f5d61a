import Minterm.Expr.Eval
import Minterm.Karnaugh.Layout

/-! Karnaugh maps: the values of an expression over two, three or four variables, laid out so that
    neighbouring cells differ in one variable. -/

namespace Minterm

structure KarnaughMap where
  vars : List String
  layout : Layout
  /-- The values, row by row. -/
  grid : List (List Bool)
  deriving DecidableEq, Repr

/-- The bit of a name in a row of bits; of two positions with one name the first counts. -/
def firstBit? (vars : List String) (bits : List Bool) (name : String) : Option Bool :=
  (vars.zip bits).lookup name

namespace KarnaughMap

/-- The map of an expression over a list of variables, which may repeat a name. -/
def ofExpr (e : Expr) (vars : List String) : Except Fault KarnaughMap := do
  let layout ← Layout.ofCount vars.length
  let grid ← layout.rowCodes.mapM fun rowCode =>
    layout.colCodes.mapM fun colCode => e.eval (firstBit? vars (rowCode ++ colCode))
  return ⟨vars, layout, grid⟩

variable (map : KarnaughMap)

def value (cell : Cell) : Bool := (map.grid[cell.1]?.bind fun row => row[cell.2]?).getD false

/-- The cells with value `1`, row by row. -/
def ones : List Cell := map.layout.cells.filter map.value

def rowVariables : List String := map.vars.take map.layout.rowVars

def colVariables : List String := map.vars.drop map.layout.rowVars

/-! ### Display -/

/-- The text, with blanks before it up to the given number of characters. -/
def padded (width : Nat) (text : String) : String :=
  String.ofList (List.replicate (width - text.length) ' ') ++ text

/-- One column of the displayed map. -/
def column (text : String) : String := " " ++ padded 3 text

/-- The names of the row variables and of the column variables, each run together. -/
def header : String :=
  String.join map.rowVariables ++ " \\ " ++ String.join map.colVariables

/-- The map as a table under its header. The column of row codes is as wide as the header has bytes. -/
def display : String :=
  let heading := map.header ++ String.join (map.layout.colCodes.map fun code => column (bitText code)) ++ "\n"
  let line (code : List Bool) (row : List Bool) : String :=
    padded map.header.utf8ByteSize (bitText code) ++ String.join (row.map fun b => column (bitText [b])) ++ "\n"
  heading ++ String.join (List.zipWith line map.layout.rowCodes map.grid)

end KarnaughMap
end Minterm
