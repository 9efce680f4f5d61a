import Mathlib.Data.List.Basic
import Minterm.Expr.Eval
import Minterm.Proofs.Chains
import Minterm.Proofs.Lists

/-! Trees whose chains nest to the left. `leftNested` rebuilds every chain of a tree in that way, from
    the same operands in the same order; this changes neither the value nor the fault under any partial
    assignment, and leaves a tree alone that nests to the left already. -/

namespace Minterm.Expr

/-- No conjunction is the right operand of a conjunction, and no disjunction that of a disjunction. -/
def LeftNested : Expr → Prop
  | .lit _ | .var _ => True
  | .not x => x.LeftNested
  | .and a b => a.LeftNested ∧ b.LeftNested ∧ b.isAnd = false
  | .or a b => a.LeftNested ∧ b.LeftNested ∧ b.isOr = false

instance decidableLeftNested : (e : Expr) → Decidable e.LeftNested
  | .lit _ | .var _ => isTrue trivial
  | .not x => decidableLeftNested x
  | .and a b =>
    have := decidableLeftNested a
    have := decidableLeftNested b
    inferInstanceAs (Decidable (a.LeftNested ∧ b.LeftNested ∧ b.isAnd = false))
  | .or a b =>
    have := decidableLeftNested a
    have := decidableLeftNested b
    inferInstanceAs (Decidable (a.LeftNested ∧ b.LeftNested ∧ b.isOr = false))

/-! ### Rebuilding the chains -/

/-- The tree with every chain nested to the left. -/
def leftNested : Expr → Expr
  | .lit b => .lit b
  | .var name => .var name
  | .not x => .not x.leftNested
  | .and a b => andAll ((Expr.and a b).factors.attach.map fun f => f.val.leftNested)
  | .or a b => orAll ((Expr.or a b).terms.attach.map fun t => t.val.leftNested)
termination_by e => e.size
decreasing_by
  · simp only [size]
    omega
  · exact size_factor_lt f.property
  · exact size_term_lt t.property

theorem leftNested_and (a b : Expr) : (a.and b).leftNested = andAll ((a.and b).factors.map leftNested) := by
  rw [leftNested]
  exact congrArg andAll List.attach_map_val

theorem leftNested_or (a b : Expr) : (a.or b).leftNested = orAll ((a.or b).terms.map leftNested) := by
  rw [leftNested]
  exact congrArg orAll List.attach_map_val

/-! ### What rebuilding keeps -/

theorem isVar_eq_false_of_isAnd {e : Expr} (h : e.isAnd = true) : e.isVar = false := by
  cases e with
  | var name => cases h
  | _ => rfl

theorem isVar_eq_false_of_isOr {e : Expr} (h : e.isOr = true) : e.isVar = false := by
  cases e with
  | var name => cases h
  | _ => rfl

theorem leftNested_and_isAnd (a b : Expr) : (a.and b).leftNested.isAnd = true := by
  rw [leftNested_and]
  refine isAnd_andAll ?_
  rw [List.length_map]
  exact two_le_length_factors a b

theorem leftNested_or_isOr (a b : Expr) : (a.or b).leftNested.isOr = true := by
  rw [leftNested_or]
  refine isOr_orAll ?_
  rw [List.length_map]
  exact two_le_length_terms a b

theorem isAnd_leftNested (e : Expr) : e.leftNested.isAnd = e.isAnd := by
  cases e with
  | and a b => exact leftNested_and_isAnd a b
  | or a b => exact isAnd_eq_false_of_isOr (leftNested_or_isOr a b)
  | lit b => rw [leftNested]
  | var name => rw [leftNested]
  | not x => rw [leftNested]; rfl

theorem isOr_leftNested (e : Expr) : e.leftNested.isOr = e.isOr := by
  cases e with
  | and a b => exact isOr_eq_false_of_isAnd (leftNested_and_isAnd a b)
  | or a b => exact leftNested_or_isOr a b
  | lit b => rw [leftNested]
  | var name => rw [leftNested]
  | not x => rw [leftNested]; rfl

theorem isVar_leftNested (e : Expr) : e.leftNested.isVar = e.isVar := by
  cases e with
  | and a b => exact isVar_eq_false_of_isAnd (leftNested_and_isAnd a b)
  | or a b => exact isVar_eq_false_of_isOr (leftNested_or_isOr a b)
  | lit b => rw [leftNested]
  | var name => rw [leftNested]
  | not x => rw [leftNested]; rfl

theorem factors_leftNested (e : Expr) : e.leftNested.factors = e.factors.map leftNested := by
  cases e with
  | and a b =>
    rw [leftNested_and]
    refine factors_andAll (fun h => factors_ne_nil _ (List.map_eq_nil_iff.mp h)) fun f hf => ?_
    obtain ⟨g, hg, rfl⟩ := List.mem_map.mp hf
    rw [isAnd_leftNested]
    exact isAnd_of_mem_factors hg
  | _ => exact factors_eq_singleton (isAnd_leftNested _)

theorem terms_leftNested (e : Expr) : e.leftNested.terms = e.terms.map leftNested := by
  cases e with
  | or a b =>
    rw [leftNested_or]
    refine terms_orAll (fun h => terms_ne_nil _ (List.map_eq_nil_iff.mp h)) fun t ht => ?_
    obtain ⟨u, hu, rfl⟩ := List.mem_map.mp ht
    rw [isOr_leftNested]
    exact isOr_of_mem_terms hu
  | _ => exact terms_eq_singleton (isOr_leftNested _)

theorem andAll_map_leftNested (e : Expr) : andAll (e.factors.map leftNested) = e.leftNested := by
  cases e with
  | and a b => exact (leftNested_and a b).symm
  | _ => rfl

theorem orAll_map_leftNested (e : Expr) : orAll (e.terms.map leftNested) = e.leftNested := by
  cases e with
  | or a b => exact (leftNested_or a b).symm
  | _ => rfl

/-- A tree that nests to the left is its own rebuilding. -/
theorem LeftNested.leftNested_eq {e : Expr} (h : e.LeftNested) : e.leftNested = e := by
  induction e with
  | lit b => rw [leftNested]
  | var name => rw [leftNested]
  | not x ih => rw [leftNested, ih h]
  | and a b iha ihb =>
    obtain ⟨ha, hb, hand⟩ := h
    rw [leftNested_and, factors_and, factors_eq_singleton hand, List.map_append, List.map_singleton,
      andAll_concat (fun h => factors_ne_nil a (List.map_eq_nil_iff.mp h)), andAll_map_leftNested, iha ha, ihb hb]
  | or a b iha ihb =>
    obtain ⟨ha, hb, hor⟩ := h
    rw [leftNested_or, terms_or, terms_eq_singleton hor, List.map_append, List.map_singleton,
      orAll_concat (fun h => terms_ne_nil a (List.map_eq_nil_iff.mp h)), orAll_map_leftNested, iha ha, ihb hb]

theorem leftNested_foldl_and {e : Expr} {es : List Expr} (h : e.LeftNested)
    (hes : ∀ f ∈ es, f.LeftNested ∧ f.isAnd = false) : (es.foldl .and e).LeftNested := by
  induction es generalizing e with
  | nil => exact h
  | cons f fs ih =>
    obtain ⟨hf, hand⟩ := hes f List.mem_cons_self
    exact ih (e := e.and f) ⟨h, hf, hand⟩ fun g hg => hes g (List.mem_cons_of_mem _ hg)

theorem leftNested_foldl_or {e : Expr} {es : List Expr} (h : e.LeftNested)
    (hes : ∀ t ∈ es, t.LeftNested ∧ t.isOr = false) : (es.foldl .or e).LeftNested := by
  induction es generalizing e with
  | nil => exact h
  | cons f fs ih =>
    obtain ⟨hf, hor⟩ := hes f List.mem_cons_self
    exact ih (e := e.or f) ⟨h, hf, hor⟩ fun g hg => hes g (List.mem_cons_of_mem _ hg)

theorem leftNested_andAll {es : List Expr} (h : ∀ f ∈ es, f.LeftNested ∧ f.isAnd = false) : (andAll es).LeftNested := by
  cases es with
  | nil => exact trivial
  | cons f fs => exact leftNested_foldl_and (h f List.mem_cons_self).1 fun g hg => h g (List.mem_cons_of_mem _ hg)

theorem leftNested_orAll {es : List Expr} (h : ∀ t ∈ es, t.LeftNested ∧ t.isOr = false) : (orAll es).LeftNested := by
  cases es with
  | nil => exact trivial
  | cons f fs => exact leftNested_foldl_or (h f List.mem_cons_self).1 fun g hg => h g (List.mem_cons_of_mem _ hg)

theorem leftNested_leftNested (e : Expr) : e.leftNested.LeftNested := by
  induction e using leftNested.induct with
  | case1 b => rw [leftNested]; exact trivial
  | case2 name => rw [leftNested]; exact trivial
  | case3 x ih => rw [leftNested]; exact ih
  | case4 a b ih =>
    rw [leftNested_and]
    refine leftNested_andAll fun f hf => ?_
    obtain ⟨g, hg, rfl⟩ := List.mem_map.mp hf
    exact ⟨ih ⟨g, hg⟩, (isAnd_leftNested g).trans (isAnd_of_mem_factors hg)⟩
  | case5 a b ih =>
    rw [leftNested_or]
    refine leftNested_orAll fun t ht => ?_
    obtain ⟨u, hu, rfl⟩ := List.mem_map.mp ht
    exact ⟨ih ⟨u, hu⟩, (isOr_leftNested u).trans (isOr_of_mem_terms hu)⟩

theorem names_leftNested (e : Expr) : e.leftNested.names = e.names := by
  induction e using leftNested.induct with
  | case1 b => rw [leftNested]
  | case2 name => rw [leftNested]
  | case3 x ih => rw [leftNested, names_not, names_not, ih]
  | case4 a b ih =>
    rw [names_factors, factors_leftNested, List.flatMap_map, names_factors (a.and b)]
    exact List.flatMap_congr fun f hf => ih ⟨f, hf⟩
  | case5 a b ih =>
    rw [names_terms, terms_leftNested, List.flatMap_map, names_terms (a.or b)]
    exact List.flatMap_congr fun t ht => ih ⟨t, ht⟩

/-! ### Values -/

variable {value? : String → Option Bool}

theorem eval_singleton (e : Expr) : e.eval value? = ([e].mapM (eval value?)).map fun values => values.all id := by
  rw [List.mapM_cons, List.mapM_nil]
  cases e.eval value? with
  | error fault => rfl
  | ok b => exact congrArg Except.ok (Bool.and_true b).symm

/-- The operands of a chain are evaluated from left to right. -/
theorem eval_factors (e : Expr) :
    e.eval value? = (e.factors.mapM (eval value?)).map fun values => values.all id := by
  induction e with
  | and a b iha ihb =>
    rw [eval, iha, ihb, factors_and, List.mapM_append]
    cases a.factors.mapM (eval value?) with
    | error fault => rfl
    | ok as =>
      cases b.factors.mapM (eval value?) with
      | error fault => rfl
      | ok bs => exact congrArg Except.ok List.all_append.symm
  | _ => exact eval_singleton _

theorem eval_singleton_any (e : Expr) : e.eval value? = ([e].mapM (eval value?)).map fun values => values.any id := by
  rw [List.mapM_cons, List.mapM_nil]
  cases e.eval value? with
  | error fault => rfl
  | ok b => exact congrArg Except.ok (Bool.or_false b).symm

theorem eval_terms (e : Expr) :
    e.eval value? = (e.terms.mapM (eval value?)).map fun values => values.any id := by
  induction e with
  | or a b iha ihb =>
    rw [eval, iha, ihb, terms_or, List.mapM_append]
    cases a.terms.mapM (eval value?) with
    | error fault => rfl
    | ok as =>
      cases b.terms.mapM (eval value?) with
      | error fault => rfl
      | ok bs => exact congrArg Except.ok List.any_append.symm
  | _ => exact eval_singleton_any _

theorem mapM_eval_leftNested {es : List Expr} (h : ∀ e ∈ es, e.leftNested.eval value? = e.eval value?) :
    (es.map leftNested).mapM (eval value?) = es.mapM (eval value?) := by
  rw [List.mapM_map]
  exact mapM_congr h

/-- Rebuilding changes neither the value nor the fault. -/
theorem eval_leftNested (e : Expr) : e.leftNested.eval value? = e.eval value? := by
  induction e using leftNested.induct with
  | case1 b => rw [leftNested]
  | case2 name => rw [leftNested]
  | case3 x ih => rw [leftNested, eval, eval, ih]
  | case4 a b ih =>
    rw [eval_factors, factors_leftNested, mapM_eval_leftNested fun f hf => ih ⟨f, hf⟩, ← eval_factors]
  | case5 a b ih =>
    rw [eval_terms, terms_leftNested, mapM_eval_leftNested fun t ht => ih ⟨t, ht⟩, ← eval_terms]

end Minterm.Expr
