import Mathlib.Logic.Function.Basic
import Minterm.Proofs.Equivalence
import Minterm.Proofs.MapCells

/-! Counting the assignments that make an expression true. The count goes along the list of names, which are
    bound one after another; where the list repeats a name, each of its bindings doubles the number of
    ways and only the last one is read. In which order the names are bound does not change the number.
    Hence it is also the number of rows of bits that pass when a repeated name is read at its first
    position instead of its last. -/

namespace Minterm

/-- How many ways of binding the names, one after another, pass a test. -/
def countBindings (test : (String → Bool) → Bool) (values : String → Bool) : List String → Nat
  | [] => (test values).toNat
  | name :: names =>
    countBindings test (Function.update values name false) names +
      countBindings test (Function.update values name true) names

section Order
variable (test : (String → Bool) → Bool) (values : String → Bool)

theorem countBindings_concat (names : List String) (name : String) :
    countBindings test values (names ++ [name]) =
      countBindings (fun values => test (Function.update values name false)) values names +
        countBindings (fun values => test (Function.update values name true)) values names := by
  induction names generalizing values with
  | nil => rfl
  | cons other names ih =>
    rw [List.cons_append, countBindings, ih, ih, countBindings, countBindings]
    exact Nat.add_add_add_comm ..

/-- The order of the names does not matter: two different names may be bound either way round, and to swap
    two equal ones changes nothing. -/
theorem countBindings_perm {names others : List String} (h : names.Perm others) :
    countBindings test values names = countBindings test values others := by
  induction h generalizing values with
  | nil => rfl
  | cons name _ ih => rw [countBindings, countBindings, ih, ih]
  | swap first second names =>
    by_cases heq : first = second
    · rw [heq]
    · simp only [countBindings, Function.update_comm heq]
      exact Nat.add_add_add_comm ..
  | trans _ _ ih₁ ih₂ => rw [ih₁, ih₂]

/-- A row of bits that is read at first positions binds the names from the last to the first. -/
theorem countP_firstBit? (vars : List String) :
    ((bitRows vars.length).countP fun row => test fun name => (firstBit? vars row name).getD (values name)) =
      countBindings test values vars.reverse := by
  -- The first name is bound last; that is put into the test, which therefore has to be general.
  induction vars generalizing test with
  | nil =>
    rw [List.length_nil, bitRows, List.countP_singleton]
    show (if test values = true then 1 else 0) = (test values).toNat
    cases test values <;> rfl
  | cons name vars ih =>
    have hbit (b : Bool) (row : List Bool) :
        (fun other => (firstBit? (name :: vars) (b :: row) other).getD (values other)) =
          Function.update (fun other => (firstBit? vars row other).getD (values other)) name b := by
      funext other
      rw [Function.update_apply, firstBit?_cons]
      split <;> rfl
    rw [List.length_cons, bitRows, List.countP_append, List.countP_map, List.countP_map]
    simp only [Function.comp_def, hbit]
    rw [ih fun values => test (Function.update values name false), ih fun values => test (Function.update values name true),
      List.reverse_cons, countBindings_concat]

end Order

namespace Bindings

theorem total_set (bindings : Bindings Bool) (name : String) (b : Bool) :
    (bindings.set name b).total = Function.update bindings.total name b := by
  funext other
  rw [total, value?_set, Function.update_apply]
  split <;> rfl

end Bindings

namespace Expr

/-! ### Satisfying assignments -/

/-- From any bindings on, the visit adds the number of ways to bind the names that are left. -/
theorem satCount_extending {e : Expr} {bound : Bindings Bool} {names : List String}
    (h : ∀ name ∈ e.names, name ∈ names ∨ (bound.value? name).isSome) (count : Nat) :
    foldAssignments (fun count values => do
      let value ← e.eval values.value?
      return if value then count + 1 else count) bound names count =
        .ok (count + countBindings e.denote bound.total names) := by
  induction names generalizing bound count with
  | nil =>
    rw [foldAssignments, eval_of_bound fun name hn => (h name hn).resolve_left List.not_mem_nil, countBindings]
    show Except.ok (if e.denote bound.total then count + 1 else count) = _
    cases e.denote bound.total <;> rfl
  | cons name names ih =>
    have hset (b : Bool) : ∀ other ∈ e.names, other ∈ names ∨ ((bound.set name b).value? other).isSome := by
      intro other hother
      rw [Bindings.value?_set]
      split
      · exact .inr rfl
      · rename_i hne
        exact (h other hother).imp_left fun hmem => (List.mem_cons.mp hmem).resolve_left hne
    rw [foldAssignments, ih (hset false)]
    -- The visit goes on with the count of the first half.
    show foldAssignments _ _ _ _ = _
    rw [ih (hset true), countBindings, Bindings.total_set, Bindings.total_set, Nat.add_assoc]

theorem satCount_eq {e : Expr} {vars : List String} (h : ∀ name ∈ e.names, name ∈ vars) :
    e.satCount vars = .ok (countBindings e.denote (fun _ => false) vars) := by
  rw [satCount, satCount_extending fun name hn => .inl (h name hn), Nat.zero_add]
  rfl

end Expr
end Minterm
