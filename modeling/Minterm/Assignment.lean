import Minterm.Bindings
import Minterm.Expr.Eval

/-! All assignments of a list of variables, counted in binary with the first variable as the most
    significant digit, and what enumerating them decides: equivalence, the number of satisfying
    assignments, tautology and satisfiability.

    `assignments` is the whole list, which has `2 ^ n` members. The decisions visit its members one at a
    time, so that a fault or a failed test ends the visit however many are left; that they visit these
    members in this order is `everyAssignment_eq` and `foldAssignments_eq`. -/

namespace Minterm

/-- The rows of `n` bits in binary order. -/
def bitRows : Nat → List (List Bool)
  | 0 => [[]]
  | n + 1 => (bitRows n).map (false :: ·) ++ (bitRows n).map (true :: ·)

/-- Each name bound to its bit; of two positions with one name the last counts. -/
def assign (vars : List String) (row : List Bool) : Bindings Bool := Bindings.ofList (vars.zip row)

/-- The assignments of a list of variables, from all-false to all-true. -/
def assignments (vars : List String) : List (Bindings Bool) := (bitRows vars.length).map (assign vars)

/-! ### Visiting the assignments -/

/-- Whether a test holds under all assignments that extend `bound` to the names. -/
def everyAssignment (test : Bindings Bool → Except Fault Bool) (bound : Bindings Bool) :
    List String → Except Fault Bool
  | [] => test bound
  | name :: names => do
    let holds ← everyAssignment test (bound.set name false) names
    if holds then everyAssignment test (bound.set name true) names else return false

/-- Takes a step for each assignment that extends `bound` to the names. -/
def foldAssignments {α : Type} (step : α → Bindings Bool → Except Fault α) (bound : Bindings Bool) :
    List String → α → Except Fault α
  | [], acc => step acc bound
  | name :: names, acc => do
    let acc ← foldAssignments step (bound.set name false) names acc
    foldAssignments step (bound.set name true) names acc

theorem allM_append {α : Type} (test : α → Except Fault Bool) (xs ys : List α) :
    (xs ++ ys).allM test = do
      let holds ← xs.allM test
      if holds then ys.allM test else return false := by
  induction xs with
  | nil => rfl
  | cons x xs ih =>
    simp only [List.cons_append, List.allM_cons, ih, bind_assoc]
    cases test x with
    | error fault => rfl
    | ok holds => cases holds <;> rfl

theorem everyAssignment_extending (test : Bindings Bool → Except Fault Bool) (bound : Bindings Bool)
    (names : List String) :
    everyAssignment test bound names =
      ((bitRows names.length).map fun row => bound.setAll (names.zip row)).allM test := by
  induction names generalizing bound with
  | nil =>
    show test bound = [bound].allM test
    rw [List.allM_cons]
    cases test bound with
    | error fault => rfl
    | ok holds => cases holds <;> rfl
  | cons name names ih =>
    rw [List.length_cons, bitRows, List.map_append, allM_append]
    simp only [List.map_map]
    rw [everyAssignment, ih, ih]
    rfl

/-- Every assignment of the variables passes a test if all members of the list do. -/
theorem everyAssignment_eq (test : Bindings Bool → Except Fault Bool) (vars : List String) :
    everyAssignment test [] vars = (assignments vars).allM test :=
  everyAssignment_extending test [] vars

theorem foldAssignments_extending {α : Type} (step : α → Bindings Bool → Except Fault α)
    (bound : Bindings Bool) (names : List String) (acc : α) :
    foldAssignments step bound names acc =
      ((bitRows names.length).map fun row => bound.setAll (names.zip row)).foldlM step acc := by
  induction names generalizing bound acc with
  | nil =>
    show step acc bound = [bound].foldlM step acc
    rw [List.foldlM_cons]
    simp only [List.foldlM_nil, bind_pure]
  | cons name names ih =>
    rw [List.length_cons, bitRows, List.map_append, List.foldlM_append]
    simp only [List.map_map]
    rw [foldAssignments, ih]
    congr
    funext acc
    rw [ih]
    rfl

theorem foldAssignments_eq {α : Type} (step : α → Bindings Bool → Except Fault α) (vars : List String)
    (acc : α) : foldAssignments step [] vars acc = (assignments vars).foldlM step acc :=
  foldAssignments_extending step [] vars acc

/-! ### Decisions -/

namespace Expr

/-- Whether two expressions have the same value under every assignment of their variables. -/
def isEquivalent (a b : Expr) : Except Fault Bool :=
  everyAssignment (fun values => do
    let left ← a.eval values.value?
    let right ← b.eval values.value?
    return left == right) [] (sharedVariables a b)

/-- How many assignments of the variables make the expression true. -/
def satCount (e : Expr) (vars : List String) : Except Fault Nat :=
  foldAssignments (fun count values => do
    let value ← e.eval values.value?
    return if value then count + 1 else count) [] vars 0

def isTautology (e : Expr) : Except Fault Bool :=
  everyAssignment (fun values => e.eval values.value?) [] e.vars

/-- An expression is satisfiable unless its negation is a tautology. -/
def isSatisfiable (e : Expr) : Except Fault Bool := do
  let refuted ← isTautology (.not e)
  return !refuted

end Expr
end Minterm
