import Minterm.Karnaugh.CellSet
import Minterm.Karnaugh.Map

/-! The candidate groups of a map, found by doubling: the single cells with value `1` first, then every
    group that is the union of two groups of half its size. -/

namespace Minterm

/-- The pairs of a list, each in the order of the list. -/
def pairs {α : Type} : List α → List (α × α)
  | [] => []
  | x :: xs => xs.map (fun y => (x, y)) ++ pairs xs

namespace Layout

/-- The groups of the given size that are unions of two of `halves`, each once. -/
def doubled (layout : Layout) (size : Nat) (halves : List CellSet) : List CellSet :=
  (((pairs halves).map fun (a, b) => CellSet.union a b).filter fun s =>
    s.length == size && CellSet.isGroup layout s).eraseDups

/-- The groups that come from `halves`, whose size is given, by at most `rounds` doublings, with the
    largest in front. -/
def doublings (layout : Layout) : Nat → Nat → List CellSet → List CellSet
  | 0, _, halves => halves
  | rounds + 1, size, halves =>
    layout.doublings rounds (2 * size) (layout.doubled (2 * size) halves) ++ halves

end Layout

/-- All groups of cells with value `1`, the largest first. A map over `n` variables has `2 ^ n` cells,
    so `n` doublings find every group. -/
def KarnaughMap.candidates (map : KarnaughMap) : List CellSet :=
  map.layout.doublings map.vars.length 1 (map.ones.map fun cell => [cell])

end Minterm
