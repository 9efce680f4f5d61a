import Minterm.Proofs.CanonicalMinimum
import Minterm.Proofs.CanonicalText
import Minterm.Proofs.NormalForms
import Minterm.Proofs.RelevantNames
import Minterm.Proofs.RoundTrip

/-! What the texts of answers mean. Simplification, conversion to a normal form and minimization keep the
    values of an expression and bring in no name (`Keeps`). The names of an input are read as variables,
    whatever other names a caller gives to minimize over; so the text of an answer is read again, as the
    tree of the answer with its chains rebuilt, and this tree has the values of the input. -/

namespace Minterm

namespace Expr

/-- `r` has the values of `e` and asks for no name that `e` does not have. -/
structure Keeps (e r : Expr) : Prop where
  names : r.names ⊆ e.names
  denote : ∀ values, r.denote values = e.denote values

namespace Keeps
variable {e r s : Expr}

theorem trans (h : e.Keeps r) (h' : r.Keeps s) : e.Keeps s :=
  ⟨List.Subset.trans h'.names h.names, fun values => (h'.denote values).trans (h.denote values)⟩

/-- A value under a partial assignment is kept too. -/
theorem eval_eq_ok (h : e.Keeps r) {value? : String → Option Bool} {b : Bool} (he : e.eval value? = .ok b) :
    r.eval value? = .ok b := by
  obtain ⟨hbound, hvalue⟩ := eval_eq_ok_iff.mp he
  exact eval_eq_ok_iff.mpr ⟨fun name hn => hbound name (h.names hn), (h.denote _).trans hvalue⟩

theorem readable (h : e.Keeps r) (he : e.Readable) : r.Readable := fun name hn => he name (h.names hn)

end Keeps

theorem keeps_simplify (e : Expr) : e.Keeps e.simplify :=
  ⟨names_simplifyWithin_subset maxPasses e, fun _ => denote_simplifyWithin maxPasses e⟩

theorem keeps_toForm (e : Expr) (form : Form) : e.Keeps (e.toForm form) :=
  ⟨fun _ hn => mem_names_toForm.mp hn, fun _ => denote_toForm e form⟩

theorem keeps_minimize {e r : Expr} {vars : List String} (h : e.minimize vars = .ok r) : e.Keeps r :=
  ⟨fun _ hn => (matters_of_mem_names_minimize h hn).mem_names, denote_minimize h⟩

theorem keeps_leftNested (e : Expr) : e.Keeps e.leftNested := by
  refine ⟨fun name hn => names_leftNested e ▸ hn, fun values => ?_⟩
  have heval : e.leftNested.eval (fun name => some (values name)) = e.eval fun name => some (values name) :=
    eval_leftNested e
  rw [eval_total, eval_total] at heval
  exact Except.ok.inj heval

/-! ### Rebuilding keeps normal forms -/

theorem leftNested_of_isAtomic {e : Expr} (h : e.isAtomic = true) : e.leftNested = e := by
  refine LeftNested.leftNested_eq ?_
  cases e with
  | not x =>
    cases x with
    | var name => exact trivial
    | _ => cases h
  | and a b | or a b => cases h
  | _ => exact trivial

theorem parts_leftNested (form : Form) (e : Expr) : form.parts e.leftNested = (form.parts e).map leftNested := by
  cases form with
  | cnf => exact factors_leftNested e
  | dnf => exact terms_leftNested e

theorem hasForm_leftNested {e : Expr} {form : Form} (h : e.hasForm form = true) : e.leftNested.hasForm form = true := by
  rw [Form.hasForm_iff] at h ⊢
  rw [parts_leftNested, List.forall_mem_map]
  intro x hx
  rw [Form.IsPart, ← Form.parts_dual, parts_leftNested, Form.parts_dual, List.forall_mem_map]
  intro y hy
  have hatomic := h x hx y hy
  rwa [leftNested_of_isAtomic hatomic]

/-! ### Reading a text -/

/-- The text is read as `r` under every limit that exceeds the number of its tokens. -/
def ReadsAs (text : String) (r : Expr) : Prop :=
  ∃ tokens, Token.ofText text = .ok tokens ∧ ∀ limit, tokens.length + 1 ≤ limit → ofTokens limit tokens = .ok r

theorem Readable.readsAs {e : Expr} (h : e.Readable) (style : Style) : ReadsAs (e.render style) e.leftNested :=
  ⟨e.tokens style, ofText_render h, fun _ => ofTokens_tokens_leftNested h⟩

end Expr

namespace Query
open Minterm.Expr

theorem normalForm_of_ofText {text : String} {e : Expr} (h : ofText text = .ok e) (form : Form) :
    normalForm form text = .ok (e.simplify.toForm form).explicitText := by
  unfold normalForm
  rw [during_eq_ok, h]
  rfl

theorem minimized_eq_ok {text t : String} {vars : List String} {e : Expr} (hread : ofText text = .ok e) :
    minimized text vars = .ok t ↔ ∃ r, e.minimize vars = .ok r ∧ r.text = t := by
  rw [minimized, during_eq_ok, hread]
  exact map_eq_ok

/-- The canonical text of an input, its normal forms and, over any list of names on which there is one, its minimum are
    texts of trees that have the value of the input wherever it has one, and the normal forms are read as
    normal forms. -/
theorem texts_mean_the_input {text : String} {e : Expr} (h : ofText text = .ok e) :
    (∃ t r, canonicalText text = .ok t ∧ ReadsAs t r ∧
      ∀ value? b, e.eval value? = .ok b → r.eval value? = .ok b) ∧
    (∀ form, ∃ t r, normalForm form text = .ok t ∧ ReadsAs t r ∧ r.hasForm form = true ∧
      ∀ value? b, e.eval value? = .ok b → r.eval value? = .ok b) ∧
    ∀ vars t, minimized text vars = .ok t → ∃ r, ReadsAs t r ∧
      ∀ value? b, e.eval value? = .ok b → r.eval value? = .ok b := by
  have hnames := readable_of_ofText h
  refine ⟨?_, fun form => ?_, fun vars t ht => ?_⟩
  · have hkeeps := e.keeps_simplify
    refine ⟨_, _, ?_, (hkeeps.readable hnames).readsAs .canonical,
      fun _ _ => (hkeeps.trans (keeps_leftNested _)).eval_eq_ok⟩
    rw [canonicalText, simplified_of_ofText h]
    rfl
  · have hkeeps := e.keeps_simplify.trans (e.simplify.keeps_toForm form)
    exact ⟨_, _, normalForm_of_ofText h form, (hkeeps.readable hnames).readsAs .explicit,
      hasForm_leftNested (hasForm_toForm _ form), fun _ _ => (hkeeps.trans (keeps_leftNested _)).eval_eq_ok⟩
  · obtain ⟨r, hr, rfl⟩ := (minimized_eq_ok h).mp ht
    have hkeeps := keeps_minimize hr
    exact ⟨_, (hkeeps.readable hnames).readsAs .canonical, fun _ _ => (hkeeps.trans (keeps_leftNested r)).eval_eq_ok⟩

/-- A name that occurs twice in the list of variables, and one that the grammar reads as a constant. -/
theorem texts_mean_the_input_constant_name :
    let e : Expr := .or (.and (.not (.var "x")) (.var "y")) (.and (.var "x") (.var "y"))
    ofText "!x & y | x & y" = .ok e ∧
      (∃ t r, minimized "!x & y | x & y" ["x", "true", "y", "x"] = .ok t ∧ ReadsAs t r ∧
        ∀ values : String → Bool, r.eval (fun name => some (values name)) = .ok (values "y")) ∧
      ∃ t r, normalForm .cnf "!x & y | x & y" = .ok t ∧ ReadsAs t r ∧ r.hasForm .cnf = true := by
  intro e
  have hread : ofText "!x & y | x & y" = .ok e := ofText_text (e := e) (by decide) (by decide)
  obtain ⟨-, hforms, hminima⟩ := texts_mean_the_input hread
  obtain ⟨minimum, hminimum⟩ : ∃ r, e.minimize ["x", "true", "y", "x"] = .ok r :=
    exists_minimizeWith.mpr ⟨by decide, by decide⟩
  have htext := (minimized_eq_ok hread).mpr ⟨minimum, hminimum, rfl⟩
  obtain ⟨r, hr, hvalue⟩ := hminima ["x", "true", "y", "x"] minimum.text htext
  obtain ⟨t, clauses, ht, hclauses, hform, -⟩ := hforms .cnf
  refine ⟨hread, ⟨_, r, htext, hr, fun values => hvalue _ _ ?_⟩, t, clauses, ht, hclauses, hform⟩
  rw [eval_total]
  cases hx : values "x" <;> cases hy : values "y" <;> simp [e, denote, hx, hy]

end Query
end Minterm
