import Minterm.Karnaugh.Layout

/-! Sets of cells, and which of them form a group: a full rectangle of the torus, connected and with a
    power of two of cells. -/

namespace Minterm

/-- A set of cells, listed row by row without repetition. -/
abbrev CellSet := List Cell

namespace CellSet

/-- Row-major order. -/
def before (a b : Cell) : Bool := a.1 < b.1 || (a.1 == b.1 && a.2 < b.2)

def add (cell : Cell) : CellSet → CellSet
  | [] => [cell]
  | other :: rest =>
    if cell = other then other :: rest
    else if before cell other then cell :: other :: rest
    else other :: add cell rest

def union (a b : CellSet) : CellSet := b.foldr add a

def ofCells (cells : List Cell) : CellSet := union [] cells

theorem mem_add {c cell : Cell} {s : CellSet} : c ∈ add cell s ↔ c = cell ∨ c ∈ s := by
  induction s with
  | nil => simp [add]
  | cons other rest ih =>
    unfold add
    split
    · rename_i h
      simp [h]
    · split
      · simp
      · simp only [List.mem_cons, ih]
        grind

theorem mem_union {c : Cell} {a b : CellSet} : c ∈ union a b ↔ c ∈ a ∨ c ∈ b := by
  induction b with
  | nil => simp [union]
  | cons d ds ih =>
    rw [show union a (d :: ds) = add d (union a ds) from rfl, mem_add, ih, List.mem_cons]
    grind

/-- The number of cells is a power of two. -/
def isPowerOfTwo (n : Nat) : Bool := n != 0 && n &&& (n - 1) == 0

/-- The set fills the product of the rows and the columns that it touches. -/
def isRectangle (s : CellSet) : Bool :=
  (s.map (·.1)).eraseDups.length * (s.map (·.2)).eraseDups.length == s.length

/-- What can be reached within `s` from the cells of `start` in at most the given number of steps. -/
def reach (layout : Layout) (s : CellSet) : Nat → List Cell → List Cell
  | 0, start => start
  | steps + 1, start =>
    reach layout s steps (s.filter fun c => decide (c ∈ start) || start.any fun d => layout.adjacent d c)

/-- From the first cell every cell can be reached. -/
def isConnected (layout : Layout) : CellSet → Bool
  | [] => false
  | first :: rest => (reach layout (first :: rest) rest.length [first]).length == rest.length + 1

def isGroup (layout : Layout) (s : CellSet) : Bool :=
  isPowerOfTwo s.length && isConnected layout s && isRectangle s

end CellSet
end Minterm
