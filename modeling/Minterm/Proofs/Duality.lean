import Minterm.Proofs.NormalForms

/-! Negation swaps the two normal forms. To push a negation down a tree that is in negation normal form already
    is to swap its connectives and to complement its leaves; so the parts that one form distributes become
    the parts that the other one does, in the same order. -/

namespace Minterm

namespace Expr

theorem pushNot_pushNot (first second : Bool) (e : Expr) :
    (e.pushNot first).pushNot second = e.pushNot (first ^^ second) := by
  induction e generalizing first second with
  | lit b => rw [pushNot, pushNot, pushNot, Bool.xor_assoc]
  | var name => cases first <;> cases second <;> rfl
  | not x ih => rw [pushNot, ih, pushNot, Bool.not_xor]
  | and a b iha ihb | or a b iha ihb => cases first <;> cases second <;> simp [pushNot, iha, ihb]

end Expr

namespace Form
variable {form : Form}

/-! ### Negated connectives -/

theorem pushNot_outer (a b : Expr) :
    (form.outer a b).pushNot true = form.dual.outer (a.pushNot true) (b.pushNot true) := by
  cases form <;> rfl

theorem pushNot_inner (a b : Expr) :
    (form.inner a b).pushNot true = form.dual.inner (a.pushNot true) (b.pushNot true) := by
  cases form <;> rfl

theorem isNnf_outer {a b : Expr} : (form.outer a b).IsNnf ↔ a.IsNnf ∧ b.IsNnf := by
  constructor
  · intro h
    cases form with
    | cnf =>
      cases h with
      | atomic h => cases h
      | and ha hb => exact ⟨ha, hb⟩
    | dnf =>
      cases h with
      | atomic h => cases h
      | or ha hb => exact ⟨ha, hb⟩
  · rintro ⟨ha, hb⟩
    cases form with
    | cnf => exact .and ha hb
    | dnf => exact .or ha hb

theorem isNnf_inner {a b : Expr} : (form.inner a b).IsNnf ↔ a.IsNnf ∧ b.IsNnf := by
  rw [← outer_dual]
  exact isNnf_outer

/-- Without negations above its connectives, a tree is topped by the other connective once it is negated. -/
theorem isOuter_pushNot {x : Expr} (h : x.IsNnf) : form.dual.isOuter (x.pushNot true) = form.isOuter x := by
  cases h with
  | and ha hb | or ha hb => cases form <;> rfl
  | atomic h =>
    cases x with
    | lit b | var name => cases form <;> rfl
    | and a b | or a b => cases h
    | not y =>
      cases y with
      | var name => cases form <;> rfl
      | _ => cases h

/-! ### Negated parts -/

/-- What replaces the negated parts of a tree negates what replaces its parts. -/
theorem mapParts_pushNot {f g : Expr → Expr} {e : Expr} (h : e.IsNnf)
    (hparts : ∀ x : Expr, x.IsNnf → g (x.pushNot true) = (f x).pushNot true) :
    form.dual.mapParts g (e.pushNot true) = (form.mapParts f e).pushNot true := by
  induction e using form.chain_induction with
  | part x hx => rw [mapParts_of_isOuter ((isOuter_pushNot h).trans hx), mapParts_of_isOuter hx, hparts x h]
  | outer a b iha ihb =>
    obtain ⟨ha, hb⟩ := isNnf_outer.mp h
    rw [pushNot_outer, mapParts_outer, iha ha, ihb hb, mapParts_outer, pushNot_outer]

theorem combine_pushNot {a b : Expr} (ha : a.IsNnf) (hb : b.IsNnf) :
    form.dual.combine (a.pushNot true) (b.pushNot true) = (form.combine a b).pushNot true :=
  mapParts_pushNot ha fun x _ => mapParts_pushNot hb fun y _ => (pushNot_inner x y).symm

theorem distribute_pushNot {e : Expr} (h : e.IsNnf) :
    form.dual.distribute (e.pushNot true) = (form.distribute e).pushNot true := by
  have hnnf : ∀ {x : Expr}, x.IsNnf → (form.distribute x).IsNnf := fun h => isNnf_of_hasForm (hasForm_distribute h)
  induction e using form.induction with
  | lit b | var name => rfl
  | not x =>
    cases h with
    | atomic h =>
      cases x with
      | var name => rfl
      | _ => cases h
  | outer a b iha ihb =>
    obtain ⟨ha, hb⟩ := isNnf_outer.mp h
    rw [pushNot_outer, distribute_outer, iha ha, ihb hb, distribute_outer, pushNot_outer]
  | inner a b iha ihb =>
    obtain ⟨ha, hb⟩ := isNnf_inner.mp h
    rw [pushNot_inner, distribute_inner, iha ha, ihb hb, combine_pushNot (hnnf ha) (hnnf hb), distribute_inner]

end Form

namespace Expr

theorem toForm_not (e : Expr) (form : Form) : (Expr.not e).toForm form.dual = (Expr.not (e.toForm form)).toNnf :=
  calc (Expr.not e).toForm form.dual
    _ = form.dual.distribute ((e.pushNot false).pushNot true) := by rw [pushNot_pushNot]; rfl
    _ = (e.toForm form).pushNot true := Form.distribute_pushNot (isNnf_pushNot false e)

/-- The conjunctive form of a negation is the disjunctive form with the negation pushed down again, and the other
    way round, operand by operand. -/
theorem normal_forms_are_dual (e : Expr) :
    (Expr.not e).toForm .cnf = (Expr.not (e.toForm .dnf)).toNnf ∧
      (Expr.not e).toForm .dnf = (Expr.not (e.toForm .cnf)).toNnf :=
  ⟨toForm_not e .dnf, toForm_not e .cnf⟩

end Expr
end Minterm
