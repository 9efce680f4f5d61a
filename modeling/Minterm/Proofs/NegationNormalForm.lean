import Minterm.Proofs.NormalForms
import Minterm.Proofs.SimplifiedShape

/-! The negation normal form of an expression. Its negations stand directly above variables, wherever they
    occur in the tree, and trees of this kind are left as they are. The names at its leaves are those of the
    expression in the same order, so that evaluation meets the same names one after another: it gives the same
    value or, where the assignment is incomplete, the same fault. -/

namespace Minterm.Expr

/-- Negations are found above variables only, anywhere in the tree, if and only if the tree is in negation
    normal form. -/
theorem isNnf_iff {e : Expr} : e.IsNnf ↔ ∀ x, .not x ∈ e.subtrees → ∃ name, x = .var name := by
  constructor
  · intro h
    induction h with
    | @atomic e h =>
      intro x hx
      cases e with
      | lit b | var name => cases List.mem_singleton.mp hx
      | and a b | or a b => cases h
      | not y =>
        cases y with
        | var name =>
          rcases List.mem_cons.mp hx with heq | hx
          · exact ⟨name, Expr.not.inj heq⟩
          · cases List.mem_singleton.mp hx
        | _ => cases h
    | and _ _ iha ihb | or _ _ iha ihb =>
      intro x hx
      rcases List.mem_cons.mp hx with heq | hx
      · cases heq
      · exact (List.mem_append.mp hx).elim (iha x) (ihb x)
  · intro h
    induction e with
    | lit b | var name => exact .atomic rfl
    | not x _ =>
      obtain ⟨name, rfl⟩ := h x (mem_subtrees_self _)
      exact .atomic rfl
    | and a b iha ihb =>
      exact .and (iha fun x hx => h x (List.mem_cons_of_mem _ (List.mem_append_left _ hx)))
        (ihb fun x hx => h x (List.mem_cons_of_mem _ (List.mem_append_right _ hx)))
    | or a b iha ihb =>
      exact .or (iha fun x hx => h x (List.mem_cons_of_mem _ (List.mem_append_left _ hx)))
        (ihb fun x hx => h x (List.mem_cons_of_mem _ (List.mem_append_right _ hx)))

/-! ### Two functions in one -/

mutual

/-- The negation normal form as a function of its own, which hands what stands below a negation to `nnfOfNegation`. -/
def nnf : Expr → Expr
  | .not x => x.nnfOfNegation
  | .and a b => .and a.nnf b.nnf
  | .or a b => .or a.nnf b.nnf
  | e => e

/-- The negation normal form of the negation of a tree. -/
def nnfOfNegation : Expr → Expr
  | .lit b => .lit (!b)
  | .var name => .not (.var name)
  | .not x => x.nnf
  | .and a b => .or a.nnfOfNegation b.nnfOfNegation
  | .or a b => .and a.nnfOfNegation b.nnfOfNegation

end

/-- To push a negation down, or none, is one of the two functions that call each other. -/
theorem pushNot_eq_nnf (e : Expr) : e.pushNot false = e.nnf ∧ e.pushNot true = e.nnfOfNegation := by
  induction e with
  | lit b => cases b <;> exact ⟨rfl, rfl⟩
  | var name => exact ⟨rfl, rfl⟩
  | not x ih => exact ⟨ih.2, ih.1⟩
  | and a b iha ihb | or a b iha ihb => exact ⟨congrArg₂ _ iha.1 ihb.1, congrArg₂ _ iha.2 ihb.2⟩

theorem toNnf_eq_nnf (e : Expr) : e.toNnf = e.nnf := (pushNot_eq_nnf e).1

/-! ### The form -/

theorem names_toNnf (e : Expr) : e.toNnf.names = e.names := names_pushNot false e

theorem denote_toNnf (values : String → Bool) (e : Expr) : e.toNnf.denote values = e.denote values := by
  rw [toNnf, denote_pushNot, Bool.xor_false]

/-- In the negation normal form negations stand above variables only; it has the variables of the expression in
    the same order and evaluates as the expression does, faults included; and it is its own negation normal
    form. -/
theorem negation_normal_form_is_exact (e : Expr) :
    (∀ x, .not x ∈ e.toNnf.subtrees → ∃ name, x = .var name) ∧ e.toNnf.vars = e.vars ∧
      (∀ value? : String → Option Bool, e.toNnf.eval value? = e.eval value?) ∧ e.toNnf.toNnf = e.toNnf := by
  have hnnf : e.toNnf.IsNnf := isNnf_pushNot false e
  refine ⟨isNnf_iff.mp hnnf, ?_, fun value? => ?_, hnnf.toNnf_eq⟩
  · rw [vars, names_toNnf, vars]
  · exact eval_congr_names (names_toNnf e) fun values => denote_toNnf values e

/-- A negation above a conjunction, inside which a negation stands above a disjunction: one negation is left, and
    its variable is the first one that is missed. -/
theorem negation_normal_form_is_exact_nested :
    let e : Expr := .not (.and (.var "x") (.not (.or (.var "y") (.lit false))))
    let value? : String → Option Bool := fun name => if name = "y" then some true else none
    .not (.var "x") ∈ e.toNnf.subtrees ∧ (∃ name, Expr.var "x" = .var name) ∧ e.toNnf.vars = ["x", "y"] ∧
      e.toNnf.eval value? = .error (.unbound "x") := by
  intro e value?
  obtain ⟨habove, hvars, heval, -⟩ := negation_normal_form_is_exact e
  have hmem : .not (.var "x") ∈ e.toNnf.subtrees := by decide
  refine ⟨hmem, habove _ hmem, hvars.trans (by decide), (heval value?).trans ?_⟩
  exact eval_of_unbound (by decide)

end Minterm.Expr
