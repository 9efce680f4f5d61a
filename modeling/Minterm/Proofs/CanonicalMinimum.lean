import Minterm.Proofs.Equivalence
import Minterm.Proofs.Minimization

/-! Minimization sees an expression through its values only. The map of an expression holds one value for
    each cell and nothing else of the tree, so equivalent expressions have the same map, and whatever a cover
    makes of it is the same for both. In the other direction the result of the greedy cover has the value
    of the expression, so that expressions with one result are equivalent. -/

namespace Minterm

namespace Expr
variable {e f : Expr}

/-- Equivalent expressions whose names are all bound have the same value. -/
theorem eval_congr {value? : String → Option Bool} (h : ∀ values, e.denote values = f.denote values)
    (he : ∀ name ∈ e.names, (value? name).isSome) (hf : ∀ name ∈ f.names, (value? name).isSome) :
    e.eval value? = f.eval value? := by
  rw [eval_of_bound he, eval_of_bound hf, h]

end Expr

namespace KarnaughMap
variable {e f : Expr} {vars : List String}

/-- Equivalent expressions have the same map. -/
theorem ofExpr_congr (h : ∀ values, e.denote values = f.denote values) (he : ∀ name ∈ e.names, name ∈ vars)
    (hf : ∀ name ∈ f.names, name ∈ vars) : ofExpr e vars = ofExpr f vars := by
  cases hlayout : Layout.ofCount vars.length with
  | error fault => rw [ofExpr, ofExpr, hlayout]; rfl
  | ok layout =>
    rw [ofExpr_of_layout hlayout, ofExpr_of_layout hlayout]
    refine congrArg _ (mapM_congr fun rowCode hr => mapM_congr fun colCode hc => ?_)
    have hbound (name : String) (hn : name ∈ vars) : (firstBit? vars (rowCode ++ colCode) name).isSome :=
      (isSome_firstBit? (Layout.length_codes hlayout hr hc) name).mpr hn
    exact Expr.eval_congr h (fun name hn => hbound name (he name hn)) fun name hn => hbound name (hf name hn)

end KarnaughMap

namespace Expr
variable {e f r : Expr} {vars : List String}

/-- Equivalent expressions have the same result, whichever way the cover chooses. -/
theorem minimizeWith_congr (h : ∀ values, e.denote values = f.denote values) (he : ∀ name ∈ e.names, name ∈ vars)
    (hf : ∀ name ∈ f.names, name ∈ vars) (cover : Cover) : e.minimizeWith vars cover = f.minimizeWith vars cover := by
  by_cases hvars : vars = []
  · subst hvars
    rw [minimizeWith_nil, minimizeWith_nil,
      eval_congr h (fun name hn => nomatch he name hn) fun name hn => nomatch hf name hn]
  · rw [minimizeWith_of_ne_nil hvars, minimizeWith_of_ne_nil hvars, KarnaughMap.ofExpr_congr h he hf]

theorem denote_minimize (hr : e.minimize vars = .ok r) (values : String → Bool) : r.denote values = e.denote values :=
  denote_minimizeWith hr (fun map _ => map.covers_greedy) values

/-- The minimum of an expression is its own minimum. -/
theorem minimize_minimize (he : ∀ name ∈ e.names, name ∈ vars) (hr : e.minimize vars = .ok r) :
    r.minimize vars = .ok r := by
  rw [← hr]
  exact minimizeWith_congr (denote_minimize hr) (fun name hn => names_minimizeWith hr hn) he Cover.greedy

/-- Over none, two, three or four names that include theirs, two expressions have the same minimum exactly if
    they are equivalent, and a minimum is its own. -/
theorem minimization_is_canonical (e f : Expr) (vars : List String)
    (hcount : vars.length = 0 ∨ 2 ≤ vars.length ∧ vars.length ≤ 4) (he : ∀ name ∈ e.vars, name ∈ vars)
    (hf : ∀ name ∈ f.vars, name ∈ vars) :
    ∃ r s, e.minimize vars = .ok r ∧ f.minimize vars = .ok s ∧ (r = s ↔ e.isEquivalent f = .ok true) ∧
      r.minimize vars = .ok r := by
  have he (name : String) (hn : name ∈ e.names) : name ∈ vars := he name (mem_vars.mpr hn)
  have hf (name : String) (hn : name ∈ f.names) : name ∈ vars := hf name (mem_vars.mpr hn)
  obtain ⟨r, hr⟩ := exists_minimizeWith.mpr ⟨hcount, he⟩
  obtain ⟨s, hs⟩ := exists_minimizeWith.mpr ⟨hcount, hf⟩
  refine ⟨r, s, hr, hs, ?_, minimize_minimize he hr⟩
  rw [isEquivalent_eq_true]
  constructor
  · rintro rfl values
    rw [← denote_minimize hr, denote_minimize hs]
  · intro h
    rw [minimizeWith_congr h he hf] at hr
    exact Except.ok.inj (hr.symm.trans hs)

/-- Two ways to write a negated conjunction, over three names of which neither has the last. -/
theorem minimization_is_canonical_negated :
    let e : Expr := .not (.and (.var "x") (.var "y"))
    let f : Expr := .or (.not (.var "x")) (.not (.var "y"))
    (["x", "y", "z"].length = 0 ∨ 2 ≤ ["x", "y", "z"].length ∧ ["x", "y", "z"].length ≤ 4) ∧
      (∀ name ∈ e.vars, name ∈ ["x", "y", "z"]) ∧ (∀ name ∈ f.vars, name ∈ ["x", "y", "z"]) ∧
      e.minimize ["x", "y", "z"] = f.minimize ["x", "y", "z"] := by
  intro e f
  have hcount : ["x", "y", "z"].length = 0 ∨ 2 ≤ ["x", "y", "z"].length ∧ ["x", "y", "z"].length ≤ 4 := by decide
  have he : ∀ name ∈ e.vars, name ∈ ["x", "y", "z"] := by decide
  have hf : ∀ name ∈ f.vars, name ∈ ["x", "y", "z"] := by decide
  obtain ⟨r, s, hr, hs, hiff, -⟩ := minimization_is_canonical e f ["x", "y", "z"] hcount he hf
  have hequivalent : e.isEquivalent f = .ok true := by decide
  exact ⟨hcount, he, hf, by rw [hr, hs, hiff.mpr hequivalent]⟩

end Expr
end Minterm
