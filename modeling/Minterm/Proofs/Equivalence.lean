import Minterm.Proofs.BitRows
import Minterm.Proofs.BoundNames
import Minterm.Proofs.Evaluation

/-! Enumerating the assignments of its variables decides what holds of an expression under every assignment.
    Every row of bits is enumerated, so every total assignment agrees with a listed one on the names of
    the list, and a value depends on no other name. Each listed assignment binds the whole list, so that no
    evaluation fails. -/

namespace Minterm

/-- The values that are bound; a name without a value is false. -/
def Bindings.total (bindings : Bindings Bool) (name : String) : Bool := (bindings.value? name).getD false

/-! ### Enumeration -/

section Enumeration
variable {vars : List String} {bindings : Bindings Bool}

theorem isSome_value?_of_mem (h : bindings ∈ assignments vars) {name : String} :
    (bindings.value? name).isSome ↔ name ∈ vars := by
  obtain ⟨row, hrow, rfl⟩ := List.mem_map.mp h
  rw [assign, Bindings.ofList, Bindings.isSome_value?_setAll (mem_bitRows.mp hrow)]
  exact or_iff_left (by simp [Bindings.value?])

/-- On the listed names every total assignment is one of the enumerated ones. -/
theorem exists_assignment (vars : List String) (values : String → Bool) :
    ∃ bindings ∈ assignments vars, ∀ name ∈ vars, bindings.total name = values name := by
  refine ⟨_, List.mem_map_of_mem (mem_bitRows.mpr (List.length_map values)), fun name hname => ?_⟩
  rw [Bindings.total, assign, Bindings.ofList, Bindings.value?_setAll_map, if_pos hname, Option.getD_some]

theorem Expr.eval_of_mem_assignments {e : Expr} (h : bindings ∈ assignments vars)
    (hnames : ∀ name ∈ e.names, name ∈ vars) : e.eval bindings.value? = .ok (e.denote bindings.total) :=
  eval_of_bound fun name hname => (isSome_value?_of_mem h).mpr (hnames name hname)

/-- A test that reads no other names holds under all enumerated assignments if it holds under all assignments. -/
theorem all_assignments_iff {test : (String → Bool) → Bool}
    (htest : ∀ values other : String → Bool, (∀ name ∈ vars, values name = other name) → test values = test other) :
    ((assignments vars).all fun bindings => test bindings.total) = true ↔ ∀ values, test values = true := by
  rw [List.all_eq_true]
  constructor
  · intro hall values
    obtain ⟨bindings, hmem, hagree⟩ := exists_assignment vars values
    rw [← htest bindings.total values hagree]
    exact hall bindings hmem
  · intro hall bindings _
    exact hall bindings.total

theorem allM_eq_ok {α : Type} {test : α → Except Fault Bool} {result : α → Bool} {xs : List α}
    (h : ∀ x ∈ xs, test x = .ok (result x)) : xs.allM test = .ok (xs.all result) := by
  induction xs with
  | nil => rfl
  | cons x xs ih =>
    obtain ⟨hx, hxs⟩ := List.forall_mem_cons.mp h
    rw [List.allM_cons, hx, List.all_cons]
    cases result x with
    | false => rfl
    | true => exact ih hxs

/-- A visit of all assignments succeeds, and tells whether the test holds under every assignment. -/
theorem everyAssignment_eq_ok (vars : List String) {test : Bindings Bool → Except Fault Bool}
    (result : (String → Bool) → Bool)
    (htest : ∀ bindings ∈ assignments vars, test bindings = .ok (result bindings.total))
    (hresult : ∀ values other : String → Bool,
      (∀ name ∈ vars, values name = other name) → result values = result other) :
    ∃ answer, everyAssignment test [] vars = .ok answer ∧ (answer = true ↔ ∀ values, result values = true) := by
  rw [everyAssignment_eq]
  exact ⟨_, allM_eq_ok htest, all_assignments_iff hresult⟩

end Enumeration

namespace Expr

/-! ### Equivalence -/

theorem mem_sharedVariables {a b : Expr} {name : String} :
    name ∈ sharedVariables a b ↔ name ∈ a.names ∨ name ∈ b.names := by
  rw [sharedVariables, List.mem_eraseDups, List.mem_append, mem_vars, mem_vars]

theorem isEquivalent_eq_ok (a b : Expr) :
    ∃ answer, a.isEquivalent b = .ok answer ∧ (answer = true ↔ ∀ values, a.denote values = b.denote values) := by
  have hleft (name : String) (hn : name ∈ a.names) : name ∈ sharedVariables a b := mem_sharedVariables.mpr (.inl hn)
  have hright (name : String) (hn : name ∈ b.names) : name ∈ sharedVariables a b := mem_sharedVariables.mpr (.inr hn)
  simp only [isEquivalent, ← beq_iff_eq (a := a.denote _)]
  refine everyAssignment_eq_ok _ (fun values => a.denote values == b.denote values) (fun bindings hmem => ?_)
    fun values other hagree => ?_
  · rw [eval_of_mem_assignments hmem hleft, eval_of_mem_assignments hmem hright]
    rfl
  · rw [denote_congr fun name hn => hagree name (hleft name hn),
      denote_congr fun name hn => hagree name (hright name hn)]

theorem isEquivalent_eq_true {a b : Expr} :
    a.isEquivalent b = .ok true ↔ ∀ values, a.denote values = b.denote values := by
  obtain ⟨answer, hanswer, hiff⟩ := isEquivalent_eq_ok a b
  rw [hanswer, ← hiff, Except.ok.injEq]

/-- The comparison of two expressions never fails, and tells whether they have the same value under every total
    assignment of their names, also of those that only one of them has. -/
theorem equivalence_is_decided (a b : Expr) :
    ∃ answer, a.isEquivalent b = .ok answer ∧
      (answer = true ↔ ∀ values : String → Bool,
        ∃ value, a.eval (fun name => some (values name)) = .ok value ∧
          b.eval (fun name => some (values name)) = .ok value) := by
  obtain ⟨answer, hanswer, hiff⟩ := isEquivalent_eq_ok a b
  refine ⟨answer, hanswer, hiff.trans (forall_congr' fun values => ?_)⟩
  simp only [eval_total, Except.ok.injEq, exists_eq_left']
  exact eq_comm

end Expr
end Minterm
