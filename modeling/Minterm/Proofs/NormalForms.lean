import Minterm.Proofs.Distribution
import Minterm.Proofs.Evaluation

/-! Conversion to a normal form. It keeps the names of an expression and its value under every assignment,
    its results have the form, and it changes no tree that has the form: the trees of a form are the
    fixed points of the conversion. -/

namespace Minterm

variable {values : String → Bool}

namespace Expr

/-! ### Negation normal form -/

/-- Negations stand directly above variables only. -/
inductive IsNnf : Expr → Prop
  | atomic {e : Expr} (h : e.isAtomic = true) : IsNnf e
  | and {a b : Expr} (ha : IsNnf a) (hb : IsNnf b) : IsNnf (.and a b)
  | or {a b : Expr} (ha : IsNnf a) (hb : IsNnf b) : IsNnf (.or a b)

theorem isNnf_pushNot (negated : Bool) (e : Expr) : (e.pushNot negated).IsNnf := by
  induction e generalizing negated with
  | lit b => exact .atomic rfl
  | var name => cases negated <;> exact .atomic rfl
  | not x ih => exact ih _
  | and a b iha ihb =>
    cases negated with
    | false => exact .and (iha false) (ihb false)
    | true => exact .or (iha true) (ihb true)
  | or a b iha ihb =>
    cases negated with
    | false => exact .or (iha false) (ihb false)
    | true => exact .and (iha true) (ihb true)

theorem denote_pushNot (negated : Bool) (e : Expr) : (e.pushNot negated).denote values = (e.denote values ^^ negated) := by
  induction e generalizing negated with
  | lit b => rfl
  | var name => cases negated <;> simp [pushNot, denote]
  | not x ih => rw [pushNot, ih, denote, Bool.xor_not, Bool.not_xor]
  | and a b iha ihb | or a b iha ihb => cases negated <;> simp [pushNot, denote, iha, ihb]

theorem names_pushNot (negated : Bool) (e : Expr) : (e.pushNot negated).names = e.names := by
  induction e generalizing negated with
  | lit b => rfl
  | var name => cases negated <;> rfl
  | not x ih => exact ih _
  | and a b iha ihb | or a b iha ihb => cases negated <;> simp [pushNot, iha, ihb]

theorem pushNot_of_isAtomic {e : Expr} (h : e.isAtomic = true) : e.pushNot false = e := by
  cases e with
  | lit b => rw [pushNot, Bool.xor_false]
  | var name => rfl
  | not x =>
    cases x with
    | var name => rfl
    | _ => cases h
  | and a b | or a b => cases h

theorem IsNnf.toNnf_eq {e : Expr} (h : e.IsNnf) : e.toNnf = e := by
  unfold toNnf
  induction h with
  | atomic h => exact pushNot_of_isAtomic h
  | and _ _ iha ihb => rw [pushNot, iha, ihb]; rfl
  | or _ _ iha ihb => rw [pushNot, iha, ihb]; rfl

end Expr

namespace Form
variable {form : Form}

/-! ### What distribution keeps -/

theorem names_outer (form : Form) (a b : Expr) : (form.outer a b).names = a.names ++ b.names := by
  cases form with
  | cnf => exact Expr.names_and a b
  | dnf => exact Expr.names_or a b

theorem names_inner (form : Form) (a b : Expr) : (form.inner a b).names = a.names ++ b.names := by
  rw [← outer_dual, names_outer]

theorem names_parts (form : Form) (e : Expr) : e.names = (form.parts e).flatMap Expr.names := by
  cases form with
  | cnf => exact e.names_factors
  | dnf => exact e.names_terms

theorem mem_names_combine {name : String} {a b : Expr} :
    name ∈ (form.combine a b).names ↔ name ∈ a.names ∨ name ∈ b.names := by
  rw [names_parts form (form.combine a b), names_parts form a, names_parts form b, parts_combine]
  simp only [List.mem_flatMap, List.mem_map]
  constructor
  · rintro ⟨-, ⟨x, hx, y, hy, rfl⟩, hname⟩
    rw [names_inner, List.mem_append] at hname
    exact hname.imp (fun h => ⟨x, hx, h⟩) fun h => ⟨y, hy, h⟩
  · rintro (⟨x, hx, hname⟩ | ⟨y, hy, hname⟩)
    · obtain ⟨y, hy⟩ := List.exists_mem_of_ne_nil _ (parts_ne_nil form b)
      exact ⟨_, ⟨x, hx, y, hy, rfl⟩, by rw [names_inner]; exact List.mem_append_left _ hname⟩
    · obtain ⟨x, hx⟩ := List.exists_mem_of_ne_nil _ (parts_ne_nil form a)
      exact ⟨_, ⟨x, hx, y, hy, rfl⟩, by rw [names_inner]; exact List.mem_append_right _ hname⟩

theorem mem_names_distribute {name : String} {e : Expr} : name ∈ (form.distribute e).names ↔ name ∈ e.names := by
  induction e using form.induction with
  | lit b | var name | not x => rfl
  | outer a b iha ihb => rw [distribute_outer, names_outer, names_outer, List.mem_append, List.mem_append, iha, ihb]
  | inner a b iha ihb => rw [distribute_inner, mem_names_combine, names_inner, List.mem_append, iha, ihb]

theorem denote_outer_congr {a b c d : Expr} (hl : a.denote values = c.denote values)
    (hr : b.denote values = d.denote values) : (form.outer a b).denote values = (form.outer c d).denote values := by
  cases form <;> simp only [outer, Expr.denote, hl, hr]

theorem denote_inner_congr {a b c d : Expr} (hl : a.denote values = c.denote values)
    (hr : b.denote values = d.denote values) : (form.inner a b).denote values = (form.inner c d).denote values := by
  rw [← outer_dual]
  exact denote_outer_congr hl hr

theorem denote_inner_outer_left (a b c : Expr) :
    (form.inner (form.outer a b) c).denote values = (form.outer (form.inner a c) (form.inner b c)).denote values := by
  cases form with
  | cnf => exact Bool.or_and_distrib_right ..
  | dnf => exact Bool.and_or_distrib_right ..

theorem denote_inner_outer_right (a b c : Expr) :
    (form.inner a (form.outer b c)).denote values = (form.outer (form.inner a b) (form.inner a c)).denote values := by
  cases form with
  | cnf => exact Bool.or_and_distrib_left ..
  | dnf => exact Bool.and_or_distrib_left ..

theorem denote_mapParts_inner (x b : Expr) :
    (form.mapParts (fun y => form.inner x y) b).denote values = (form.inner x b).denote values := by
  induction b using form.chain_induction with
  | part y h => rw [mapParts_of_isOuter h]
  | outer a b iha ihb => rw [mapParts_outer, denote_inner_outer_right, denote_outer_congr iha ihb]

/-- Both connectives distribute over each other, so combining has the value of the inner connective. -/
theorem denote_combine (a b : Expr) : (form.combine a b).denote values = (form.inner a b).denote values := by
  unfold combine
  induction a using form.chain_induction with
  | part x h => rw [mapParts_of_isOuter h, denote_mapParts_inner]
  | outer a c iha ihc => rw [mapParts_outer, denote_inner_outer_left, denote_outer_congr iha ihc]

theorem denote_distribute (e : Expr) : (form.distribute e).denote values = e.denote values := by
  induction e using form.induction with
  | lit b | var name | not x => rfl
  | outer a b iha ihb =>
    rw [distribute_outer]
    exact denote_outer_congr iha ihb
  | inner a b iha ihb =>
    rw [distribute_inner, denote_combine]
    exact denote_inner_congr iha ihb

end Form

namespace Expr

/-! ### Conversion keeps the meaning -/

theorem denote_toForm (e : Expr) (form : Form) : (e.toForm form).denote values = e.denote values := by
  rw [toForm, Form.denote_distribute, toNnf, denote_pushNot, Bool.xor_false]

theorem mem_names_toForm {e : Expr} {form : Form} {name : String} : name ∈ (e.toForm form).names ↔ name ∈ e.names := by
  rw [toForm, Form.mem_names_distribute, toNnf, names_pushNot]

/-- A normal form has a value under the same partial assignments as the expression, and the same value; it
    has the same variables. -/
theorem conversion_keeps_value (e : Expr) (form : Form) :
    (∀ (value? : String → Option Bool) (b : Bool),
      (e.toForm form).eval value? = .ok b ↔ e.eval value? = .ok b) ∧
      ∀ name, name ∈ (e.toForm form).vars ↔ name ∈ e.vars := by
  refine ⟨fun value? b => ?_, fun name => ?_⟩
  · simp only [eval_eq_ok_iff, mem_names_toForm, denote_toForm]
  · rw [mem_vars, mem_vars, mem_names_toForm]

end Expr

namespace Form
variable {form : Form}

/-! ### The shape -/

/-- A part of the form: no outer connective, and atomic parts of its own. -/
def IsPart (form : Form) (e : Expr) : Prop := ∀ x ∈ form.subparts e, x.isAtomic = true

theorem hasForm_iff {e : Expr} : e.hasForm form = true ↔ ∀ x ∈ form.parts e, form.IsPart x := by
  simp only [Expr.hasForm, List.all_eq_true, IsPart]

theorem isOuter_of_isAtomic {e : Expr} (h : e.isAtomic = true) : form.isOuter e = false := by
  cases e with
  | and a b | or a b => cases h
  | _ => cases form <;> rfl

theorem isPart_of_isAtomic {e : Expr} (h : e.isAtomic = true) : form.IsPart e := by
  rw [IsPart, ← parts_dual, parts_eq_singleton (isOuter_of_isAtomic h), List.forall_mem_singleton]
  exact h

theorem IsPart.isOuter_eq_false {e : Expr} (h : form.IsPart e) : form.isOuter e = false := by
  cases houter : form.isOuter e with
  | false => rfl
  | true =>
    rw [IsPart, subparts_eq_singleton houter, List.forall_mem_singleton] at h
    exact houter.symm.trans (isOuter_of_isAtomic h)

theorem isPart_inner {a b : Expr} : form.IsPart (form.inner a b) ↔ form.IsPart a ∧ form.IsPart b := by
  simp only [IsPart, subparts_inner, List.forall_mem_append]

theorem IsPart.hasForm {e : Expr} (h : form.IsPart e) : e.hasForm form = true := by
  rw [hasForm_iff, parts_eq_singleton h.isOuter_eq_false, List.forall_mem_singleton]
  exact h

theorem hasForm_outer {a b : Expr} :
    (form.outer a b).hasForm form = true ↔ a.hasForm form = true ∧ b.hasForm form = true := by
  simp only [hasForm_iff, parts_outer, List.forall_mem_append]

theorem hasForm_inner {a b : Expr} : (form.inner a b).hasForm form = true ↔ form.IsPart a ∧ form.IsPart b := by
  rw [hasForm_iff, parts_eq_singleton (isOuter_inner form a b), List.forall_mem_singleton, isPart_inner]

theorem hasForm_combine {a b : Expr} (ha : a.hasForm form = true) (hb : b.hasForm form = true) :
    (form.combine a b).hasForm form = true := by
  rw [hasForm_iff] at ha hb ⊢
  rw [parts_combine]
  intro z hz
  obtain ⟨x, hx, hz⟩ := List.mem_flatMap.mp hz
  obtain ⟨y, hy, rfl⟩ := List.mem_map.mp hz
  exact isPart_inner.mpr ⟨ha x hx, hb y hy⟩

theorem hasForm_distribute {e : Expr} (h : e.IsNnf) : (form.distribute e).hasForm form = true := by
  induction h with
  | @atomic e h =>
    have hfixed : form.distribute e = e := by
      cases e with
      | and a b | or a b => cases h
      | _ => rfl
    rw [hfixed]
    exact (isPart_of_isAtomic h).hasForm
  | and _ _ iha ihb =>
    cases form with
    | cnf => exact hasForm_outer.mpr ⟨iha, ihb⟩
    | dnf => exact hasForm_combine iha ihb
  | or _ _ iha ihb =>
    cases form with
    | cnf => exact hasForm_combine iha ihb
    | dnf => exact hasForm_outer.mpr ⟨iha, ihb⟩

/-! ### Trees of the form -/

theorem isNnf_of_parts {e : Expr} (h : ∀ x ∈ form.parts e, x.IsNnf) : e.IsNnf := by
  induction e using form.chain_induction with
  | part x hx =>
    rw [parts_eq_singleton hx, List.forall_mem_singleton] at h
    exact h
  | outer a b iha ihb =>
    rw [parts_outer, List.forall_mem_append] at h
    cases form with
    | cnf => exact .and (iha h.1) (ihb h.2)
    | dnf => exact .or (iha h.1) (ihb h.2)

theorem IsPart.isNnf {e : Expr} (h : form.IsPart e) : e.IsNnf := by
  rw [IsPart, ← parts_dual] at h
  exact isNnf_of_parts fun x hx => .atomic (h x hx)

theorem isNnf_of_hasForm {e : Expr} (h : e.hasForm form = true) : e.IsNnf :=
  isNnf_of_parts fun x hx => (hasForm_iff.mp h x hx).isNnf

theorem distribute_of_hasForm {e : Expr} (h : e.hasForm form = true) : form.distribute e = e := by
  induction e using form.induction with
  | lit b | var name | not x => rfl
  | outer a b iha ihb =>
    obtain ⟨ha, hb⟩ := hasForm_outer.mp h
    rw [distribute_outer, iha ha, ihb hb]
  | inner a b iha ihb =>
    obtain ⟨ha, hb⟩ := hasForm_inner.mp h
    rw [distribute_inner, iha ha.hasForm, ihb hb.hasForm, combine_eq_inner ha.isOuter_eq_false hb.isOuter_eq_false]

end Form

namespace Expr

/-! ### Fixed points of the conversion -/

theorem hasForm_toForm (e : Expr) (form : Form) : (e.toForm form).hasForm form = true :=
  Form.hasForm_distribute (isNnf_pushNot false e)

theorem toForm_of_hasForm {e : Expr} {form : Form} (h : e.hasForm form = true) : e.toForm form = e := by
  rw [toForm, (Form.isNnf_of_hasForm h).toNnf_eq, Form.distribute_of_hasForm h]

/-- Conversion gives a tree of the form; it leaves exactly the trees of the form as they are, its own
    results among them. -/
theorem normal_forms_are_fixed_points (e : Expr) (form : Form) :
    (e.toForm form).hasForm form = true ∧ (e.hasForm form = true ↔ e.toForm form = e) ∧
      (e.toForm form).toForm form = e.toForm form := by
  have hshape := hasForm_toForm e form
  refine ⟨hshape, ⟨toForm_of_hasForm, fun hfixed => ?_⟩, toForm_of_hasForm hshape⟩
  rw [← hfixed]
  exact hshape

end Expr
end Minterm
