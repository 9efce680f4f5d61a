import Mathlib.Data.List.Basic
import Minterm.Expr.NormalForm
import Minterm.Proofs.Chains

/-! Distribution of the inner connective of a form over the outer one. Everything is said once for both
    forms, in terms of their two connectives; the dual form swaps these, so that what holds of parts
    holds of the parts of a part. The parts of a combination are all products of a part of the left
    operand and a part of the right one, row by row (`parts_combine`). -/

namespace Minterm.Form

variable {form : Form}

/-! ### The two connectives -/

/-- The connective between the parts of the form. -/
def outer : Form → Expr → Expr → Expr
  | .cnf => .and
  | .dnf => .or

def isOuter : Form → Expr → Bool
  | .cnf => Expr.isAnd
  | .dnf => Expr.isOr

def dual : Form → Form
  | .cnf => .dnf
  | .dnf => .cnf

theorem outer_dual (form : Form) : form.dual.outer = form.inner := by
  cases form <;> rfl

theorem parts_dual (form : Form) : form.dual.parts = form.subparts := by
  cases form <;> rfl

theorem isOuter_inner (form : Form) (a b : Expr) : form.isOuter (form.inner a b) = false := by
  cases form <;> rfl

theorem isOuter_dual_of_isOuter {e : Expr} (h : form.isOuter e = true) : form.dual.isOuter e = false := by
  cases form with
  | cnf => exact Expr.isOr_eq_false_of_isAnd h
  | dnf => exact Expr.isAnd_eq_false_of_isOr h

/-- Every tree is a constant, a variable, a negation, or joined by one of the two connectives. -/
@[elab_as_elim]
theorem induction (form : Form) {motive : Expr → Prop} (e : Expr) (lit : ∀ b, motive (.lit b))
    (var : ∀ name, motive (.var name)) (not : ∀ x, motive x → motive (.not x))
    (outer : ∀ a b, motive a → motive b → motive (form.outer a b))
    (inner : ∀ a b, motive a → motive b → motive (form.inner a b)) : motive e := by
  induction e with
  | lit b => exact lit b
  | var name => exact var name
  | not x ih => exact not x ih
  | and a b iha ihb =>
    cases form with
    | cnf => exact outer a b iha ihb
    | dnf => exact inner a b iha ihb
  | or a b iha ihb =>
    cases form with
    | cnf => exact inner a b iha ihb
    | dnf => exact outer a b iha ihb

/-! ### Parts -/

theorem parts_outer (a b : Expr) : form.parts (form.outer a b) = form.parts a ++ form.parts b := by
  cases form with
  | cnf => exact Expr.factors_and a b
  | dnf => exact Expr.terms_or a b

theorem parts_eq_singleton {e : Expr} (h : form.isOuter e = false) : form.parts e = [e] := by
  cases form with
  | cnf => exact Expr.factors_eq_singleton h
  | dnf => exact Expr.terms_eq_singleton h

theorem subparts_inner (a b : Expr) : form.subparts (form.inner a b) = form.subparts a ++ form.subparts b := by
  rw [← outer_dual, ← parts_dual]
  exact parts_outer a b

theorem subparts_eq_singleton {e : Expr} (h : form.isOuter e = true) : form.subparts e = [e] := by
  rw [← parts_dual]
  exact parts_eq_singleton (isOuter_dual_of_isOuter h)

theorem parts_ne_nil (form : Form) (e : Expr) : form.parts e ≠ [] := by
  cases form with
  | cnf => exact e.factors_ne_nil
  | dnf => exact e.terms_ne_nil

/-- A chain is made of parts that the outer connective joins. -/
theorem chain_induction (form : Form) {motive : Expr → Prop} (e : Expr)
    (part : ∀ x, form.isOuter x = false → motive x)
    (outer : ∀ a b, motive a → motive b → motive (form.outer a b)) : motive e := by
  induction e using form.induction with
  | outer a b iha ihb => exact outer a b iha ihb
  | inner a b => exact part _ (isOuter_inner form a b)
  | lit b | var name | not x => exact part _ (by cases form <;> rfl)

/-! ### Replacing parts -/

theorem mapParts_outer (f : Expr → Expr) (a b : Expr) :
    form.mapParts f (form.outer a b) = form.outer (form.mapParts f a) (form.mapParts f b) := by
  cases form <;> rfl

theorem mapParts_of_isOuter {e : Expr} (h : form.isOuter e = false) (f : Expr → Expr) : form.mapParts f e = f e := by
  cases form with
  | cnf =>
    cases e with
    | and a b => cases h
    | _ => rfl
  | dnf =>
    cases e with
    | or a b => cases h
    | _ => rfl

theorem parts_mapParts (f : Expr → Expr) (e : Expr) :
    form.parts (form.mapParts f e) = (form.parts e).flatMap fun x => form.parts (f x) := by
  induction e using form.chain_induction with
  | part x h => rw [mapParts_of_isOuter h, parts_eq_singleton h, List.flatMap_singleton]
  | outer a b iha ihb => rw [mapParts_outer, parts_outer, iha, ihb, parts_outer, List.flatMap_append]

/-- Every part of `a` meets every part of `b`, row by row. -/
theorem parts_combine (a b : Expr) :
    form.parts (form.combine a b) = (form.parts a).flatMap fun x => (form.parts b).map fun y => form.inner x y := by
  have hrow (x : Expr) : form.parts (form.mapParts (fun y => form.inner x y) b) =
      (form.parts b).map fun y => form.inner x y := by
    rw [parts_mapParts, List.map_eq_flatMap]
    exact List.flatMap_congr fun y _ => parts_eq_singleton (isOuter_inner form x y)
  rw [combine, parts_mapParts]
  exact List.flatMap_congr fun x _ => hrow x

theorem combine_eq_inner {a b : Expr} (ha : form.isOuter a = false) (hb : form.isOuter b = false) :
    form.combine a b = form.inner a b := by
  rw [combine, mapParts_of_isOuter ha, mapParts_of_isOuter hb]

/-! ### Distribution -/

theorem distribute_outer (a b : Expr) :
    form.distribute (form.outer a b) = form.outer (form.distribute a) (form.distribute b) := by
  cases form <;> rfl

theorem distribute_inner (a b : Expr) :
    form.distribute (form.inner a b) = form.combine (form.distribute a) (form.distribute b) := by
  cases form <;> rfl

end Minterm.Form
