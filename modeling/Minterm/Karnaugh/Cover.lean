import Minterm.Karnaugh.CellSet

/-! Strategies for choosing among candidate groups so that the chosen ones together contain every cell
    with value `1`. -/

namespace Minterm

/-- Chooses among candidates, which it names by their positions, given the cells to be covered. -/
structure Cover where
  choose : List CellSet → List Cell → List Nat
  lt_length : ∀ {candidates : List CellSet} {ones : List Cell} {i : Nat},
    i ∈ choose candidates ones → i < candidates.length

namespace Cover

instance : CoeFun Cover fun _ => List CellSet → List Cell → List Nat := ⟨choose⟩

/-- The chosen candidates, in the order of the choices. -/
def chosen (cover : Cover) (candidates : List CellSet) (ones : List Cell) : List CellSet :=
  (cover candidates ones).pmap (fun i (_ : i < candidates.length) => candidates[i]) fun _ => cover.lt_length

/-- The cells that are covered with one more candidate. -/
abbrev extend (covered : List Cell) (s : CellSet) : List Cell := s.foldl (fun cells c => cells.insert c) covered

/-- Goes on from candidate number `next`, with the cells that are covered already. -/
def greedyFrom (ones : List Cell) (next : Nat) (covered : List Cell) : List CellSet → List Nat
  | [] => []
  | candidate :: rest =>
    if covered.length = ones.length then []
    else if candidate.any (· ∉ covered) then
      next :: greedyFrom ones (next + 1) (extend covered candidate) rest
    else greedyFrom ones (next + 1) covered rest

theorem greedyFrom_cons (ones : List Cell) (next : Nat) (covered : List Cell) (s : CellSet) (rest : List CellSet) :
    greedyFrom ones next covered (s :: rest) =
      if covered.length = ones.length then []
      else if s.any (· ∉ covered) then next :: greedyFrom ones (next + 1) (extend covered s) rest
      else greedyFrom ones (next + 1) covered rest := rfl

theorem lt_of_mem_greedyFrom {ones covered : List Cell} {next i : Nat} {rest : List CellSet}
    (h : i ∈ greedyFrom ones next covered rest) : i < next + rest.length := by
  induction rest generalizing next covered with
  | nil => cases h
  | cons candidate rest ih =>
    have hlater {covered : List Cell} (h : i ∈ greedyFrom ones (next + 1) covered rest) :
        i < next + (candidate :: rest).length := by
      have hlt := ih h
      rw [List.length_cons]
      omega
    rw [greedyFrom_cons] at h
    split at h
    · cases h
    · split at h
      · rcases List.mem_cons.mp h with rfl | h
        · exact Nat.lt_add_of_pos_right (Nat.zero_lt_succ _)
        · exact hlater h
      · exact hlater h

/-- Takes each candidate in turn that has a cell which no earlier choice covers, until as many cells are
    covered as there are to cover. -/
def greedy : Cover where
  choose candidates ones := greedyFrom ones 0 [] candidates
  lt_length h := Nat.lt_of_lt_of_eq (lt_of_mem_greedyFrom h) (Nat.zero_add _)

/-- Takes every candidate. -/
def all : Cover where
  choose candidates _ := List.range candidates.length
  lt_length := List.mem_range.mp

/-- Takes the candidates at the given positions, as far as they exist. -/
def fixed (positions : List Nat) : Cover where
  choose candidates _ := positions.filter (· < candidates.length)
  lt_length h := of_decide_eq_true (List.mem_filter.mp h).2

end Cover
end Minterm
