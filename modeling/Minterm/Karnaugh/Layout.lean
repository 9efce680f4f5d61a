import Minterm.Fault
import Minterm.GrayCode

/-! The shape of a Karnaugh map: how many variables index its rows and its columns, which cells it has
    and which of them are neighbours. Rows and columns stand in Gray order, and the map is a torus:
    the first row is next to the last one, and likewise for columns. -/

namespace Minterm

/-- A row and a column, counted from zero. -/
abbrev Cell := Nat × Nat

/-- How the variables of a map are shared between its rows and its columns. -/
structure Layout where
  rowVars : Nat
  colVars : Nat
  deriving DecidableEq, Repr

/-- The distance of two places on a circle of `n` places. -/
def circularDistance (n i j : Nat) : Nat :=
  let d := max i j - min i j
  min d (n - d)

namespace Layout

/-- Maps exist over two, three or four variables. -/
def ofCount : Nat → Except Fault Layout
  | 2 => .ok ⟨1, 1⟩
  | 3 => .ok ⟨1, 2⟩
  | 4 => .ok ⟨2, 2⟩
  | n => .error (.variableCount n)

variable (layout : Layout)

def rowCodes : List (List Bool) := grayCode layout.rowVars

def colCodes : List (List Bool) := grayCode layout.colVars

def rows : Nat := layout.rowCodes.length

def cols : Nat := layout.colCodes.length

/-- All cells, row by row. -/
def cells : List Cell := (List.range layout.rows).flatMap fun r => (List.range layout.cols).map fun c => (r, c)

def rowCode (cell : Cell) : List Bool := layout.rowCodes[cell.1]?.getD []

def colCode (cell : Cell) : List Bool := layout.colCodes[cell.2]?.getD []

/-- The bits of all variables at a cell, those of the row first. -/
def bits (cell : Cell) : List Bool := layout.rowCode cell ++ layout.colCode cell

def bit (cell : Cell) (i : Nat) : Bool := (layout.bits cell)[i]?.getD false

/-- Neighbours are one step apart in one direction. -/
def adjacent (a b : Cell) : Bool :=
  let dr := circularDistance layout.rows a.1 b.1
  let dc := circularDistance layout.cols a.2 b.2
  (dr == 1 && dc == 0) || (dr == 0 && dc == 1)

end Layout
end Minterm
