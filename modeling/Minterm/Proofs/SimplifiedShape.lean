import Minterm.Proofs.ReducedForm
import Minterm.Proofs.SimplifiedSize

/-! The shape of simplified trees, said of the tree as a whole. What `Reduced` asks of each node, by the rule
    that would apply there, holds of all parts of the tree at once, and amounts to the same: the chains are
    of separate operands, and neither constants nor double negations are left at any place. -/

namespace Minterm.Expr

/-- A tree and all that stands below it, one tree for each node. -/
def subtrees : Expr → List Expr
  | .not x => .not x :: x.subtrees
  | .and a b => .and a b :: (a.subtrees ++ b.subtrees)
  | .or a b => .or a b :: (a.subtrees ++ b.subtrees)
  | e => [e]

/-- No part of the tree is one that a rule is for. The operands of a chain are compared two by two, whether
    or not the chain is part of a longer one. -/
structure Irreducible (e : Expr) : Prop where
  no_constant : ∀ b, .lit b ∉ e.subtrees
  no_double_negation : ∀ x, .not (.not x) ∉ e.subtrees
  and_nests_left : ∀ a b c, .and a (.and b c) ∉ e.subtrees
  or_nests_left : ∀ a b c, .or a (.or b c) ∉ e.subtrees
  factors_apart : ∀ s ∈ e.subtrees, s.factors.Pairwise Apart
  terms_apart : ∀ s ∈ e.subtrees, s.terms.Pairwise Apart
  no_shared_factor : ∀ a b, .or a b ∈ e.subtrees → ∀ f ∈ a.factors, f ∉ b.factors

theorem mem_subtrees_self (e : Expr) : e ∈ e.subtrees := by
  cases e <;> exact List.mem_cons_self

theorem mem_names_of_mem_subtrees {e : Expr} {name : String} (h : .var name ∈ e.subtrees) : name ∈ e.names := by
  induction e with
  | lit b => cases List.mem_singleton.mp h
  | var other =>
    obtain rfl := var.inj (List.mem_singleton.mp h)
    exact List.mem_singleton_self _
  | not y ih =>
    rcases List.mem_cons.mp h with h | h
    · cases h
    · exact ih h
  | and a b iha ihb | or a b iha ihb =>
    rcases List.mem_cons.mp h with h | h
    · cases h
    · simp only [names_and, names_or, List.mem_append]
      exact (List.mem_append.mp h).imp iha ihb

/-! ### Reduced trees are irreducible -/

/-- Separate operands stay so when one is put behind them that neither repeats nor opposes any. -/
theorem pairwise_apart_concat {es : List Expr} {e : Expr} (hes : es.Pairwise Apart) (hmem : e ∉ es)
    (hopp : ∀ f ∈ es, f.complements e = false) : (es ++ [e]).Pairwise Apart := by
  refine List.pairwise_append.mpr ⟨hes, List.pairwise_singleton _ _, fun f hf g hg => ?_⟩
  obtain rfl := List.mem_singleton.mp hg
  exact ⟨fun heq => hmem (heq ▸ hf), hopp f hf⟩

namespace Reduced

theorem subtree {e s : Expr} (h : Reduced e) (hs : s ∈ e.subtrees) : Reduced s := by
  induction h with
  | var name =>
    obtain rfl := List.mem_singleton.mp hs
    exact .var name
  | not hx hnot ih =>
    rcases List.mem_cons.mp hs with rfl | hs
    · exact .not hx hnot
    · exact ih hs
  | and ha hb hand hmem hopp iha ihb =>
    rcases List.mem_cons.mp hs with rfl | hs
    · exact .and ha hb hand hmem hopp
    · rcases List.mem_append.mp hs with hs | hs
      · exact iha hs
      · exact ihb hs
  | or ha hb hor hmem hopp hcommon iha ihb =>
    rcases List.mem_cons.mp hs with rfl | hs
    · exact .or ha hb hor hmem hopp hcommon
    · rcases List.mem_append.mp hs with hs | hs
      · exact iha hs
      · exact ihb hs

theorem pairwise_factors {e : Expr} (h : Reduced e) : e.factors.Pairwise Apart := by
  induction h with
  | and _ _ hand hmem hopp iha _ =>
    rw [factors_and, factors_eq_singleton hand]
    exact pairwise_apart_concat iha hmem hopp
  | var | not | or => exact List.pairwise_singleton _ _

theorem pairwise_terms {e : Expr} (h : Reduced e) : e.terms.Pairwise Apart := by
  induction h with
  | or _ _ hor hmem hopp _ iha _ =>
    rw [terms_or, terms_eq_singleton hor]
    exact pairwise_apart_concat iha hmem hopp
  | var | not | and => exact List.pairwise_singleton _ _

theorem irreducible {e : Expr} (h : Reduced e) : Irreducible e where
  no_constant b hs := by cases h.subtree hs
  no_double_negation x hs := by
    cases h.subtree hs with
    | not _ hnot => cases hnot
  and_nests_left a b c hs := by
    cases h.subtree hs with
    | and _ _ hand => cases hand
  or_nests_left a b c hs := by
    cases h.subtree hs with
    | or _ _ hor => cases hor
  factors_apart s hs := (h.subtree hs).pairwise_factors
  terms_apart s hs := (h.subtree hs).pairwise_terms
  no_shared_factor a b hs f ha hb := by
    cases h.subtree hs with
    | or _ _ _ _ _ hcommon => exact List.ne_nil_of_mem (mem_commonFactors.mpr ⟨ha, hb⟩) hcommon

end Reduced

/-! ### Irreducible trees are reduced -/

namespace Irreducible

theorem of_mem {e s : Expr} (h : Irreducible e) (hsub : ∀ r ∈ s.subtrees, r ∈ e.subtrees) : Irreducible s where
  no_constant b hs := h.no_constant b (hsub _ hs)
  no_double_negation x hs := h.no_double_negation x (hsub _ hs)
  and_nests_left a b c hs := h.and_nests_left a b c (hsub _ hs)
  or_nests_left a b c hs := h.or_nests_left a b c (hsub _ hs)
  factors_apart s hs := h.factors_apart s (hsub _ hs)
  terms_apart s hs := h.terms_apart s (hsub _ hs)
  no_shared_factor a b hs := h.no_shared_factor a b (hsub _ hs)

theorem isNot_eq_false {x : Expr} (h : Irreducible (.not x)) : x.isNot = false := by
  cases x with
  | not y => exact absurd (mem_subtrees_self _) (h.no_double_negation y)
  | _ => rfl

theorem isAnd_eq_false {a b : Expr} (h : Irreducible (.and a b)) : b.isAnd = false := by
  cases b with
  | and b c => exact absurd (mem_subtrees_self _) (h.and_nests_left a b c)
  | _ => rfl

theorem isOr_eq_false {a b : Expr} (h : Irreducible (.or a b)) : b.isOr = false := by
  cases b with
  | or b c => exact absurd (mem_subtrees_self _) (h.or_nests_left a b c)
  | _ => rfl

theorem factor_apart {a b : Expr} (h : Irreducible (.and a b)) : ∀ f ∈ a.factors, Apart f b := by
  have hpairs := h.factors_apart _ (mem_subtrees_self _)
  rw [factors_and, factors_eq_singleton h.isAnd_eq_false] at hpairs
  exact fun f hf => (List.pairwise_append.mp hpairs).2.2 f hf b List.mem_cons_self

theorem term_apart {a b : Expr} (h : Irreducible (.or a b)) : ∀ t ∈ a.terms, Apart t b := by
  have hpairs := h.terms_apart _ (mem_subtrees_self _)
  rw [terms_or, terms_eq_singleton h.isOr_eq_false] at hpairs
  exact fun t ht => (List.pairwise_append.mp hpairs).2.2 t ht b List.mem_cons_self

theorem commonFactors_eq_nil {a b : Expr} (h : Irreducible (.or a b)) : a.commonFactors b = [] := by
  refine List.eq_nil_iff_forall_not_mem.mpr fun f hf => ?_
  obtain ⟨ha, hb⟩ := mem_commonFactors.mp hf
  exact h.no_shared_factor a b (mem_subtrees_self _) f ha hb

theorem reduced {e : Expr} (h : Irreducible e) : Reduced e := by
  induction e with
  | lit b => exact absurd (mem_subtrees_self _) (h.no_constant b)
  | var name => exact .var name
  | not x ih => exact .not (ih (h.of_mem fun _ => List.mem_cons_of_mem _)) h.isNot_eq_false
  | and a b iha ihb =>
    have ha := iha (h.of_mem fun _ hs => List.mem_cons_of_mem _ (List.mem_append_left _ hs))
    have hb := ihb (h.of_mem fun _ hs => List.mem_cons_of_mem _ (List.mem_append_right _ hs))
    exact ha.and_of_apart hb h.isAnd_eq_false h.factor_apart
  | or a b iha ihb =>
    have ha := iha (h.of_mem fun _ hs => List.mem_cons_of_mem _ (List.mem_append_left _ hs))
    have hb := ihb (h.of_mem fun _ hs => List.mem_cons_of_mem _ (List.mem_append_right _ hs))
    exact .or ha hb h.isOr_eq_false (fun hmem => (h.term_apart b hmem).1 rfl) (fun t ht => (h.term_apart t ht).2)
      h.commonFactors_eq_nil

end Irreducible

theorem simplified_iff {e : Expr} : Simplified e ↔ e.isLit = true ∨ Irreducible e :=
  or_congr_right ⟨Reduced.irreducible, Irreducible.reduced⟩

/-- A pass or more make a constant or an irreducible tree, and these are the trees that simplification leaves
    as they are. -/
theorem simplified_trees_are_irreducible {limit : Nat} (hlimit : 1 ≤ limit) (e : Expr) :
    ((simplifyWithin limit e).isLit = true ∨ Irreducible (simplifyWithin limit e)) ∧
      (simplifyWithin limit e = e ↔ e.isLit = true ∨ Irreducible e) := by
  obtain ⟨fewer, rfl⟩ := Nat.exists_eq_add_of_le' hlimit
  have hshape : Simplified (simplifyWithin (fewer + 1) e) := by
    rw [simplifyWithin_succ]
    exact simplified_pass e
  refine ⟨simplified_iff.mp hshape, fun heq => ?_, fun h => ?_⟩
  · rw [heq] at hshape
    exact simplified_iff.mp hshape
  · exact (simplified_iff.mpr h).simplifyWithin_eq _

/-- A double negation uncovers the factor that both sides share. -/
theorem simplified_trees_are_irreducible_factored :
    let e : Expr := .or (.and (.var "x") (.var "y")) (.and (.var "z") (.not (.not (.var "x"))))
    let simplified : Expr := .and (.var "x") (.or (.var "y") (.var "z"))
    1 ≤ 2 ∧ simplifyWithin 2 e = simplified ∧ Irreducible simplified ∧ ¬Irreducible e := by
  intro e simplified
  obtain ⟨hshape, hfixed⟩ := simplified_trees_are_irreducible (show 1 ≤ 2 by decide) e
  have hvalue : simplifyWithin 2 e = simplified := by
    rw [simplifyWithin_succ]
    exact disj_eq_of_disjWithin (show 3 + 2 * 3 < 10 by decide) (by decide)
  rw [hvalue] at hshape hfixed
  exact ⟨by decide, hvalue, hshape.resolve_left (by decide), fun h => absurd (hfixed.mpr (Or.inr h)) (by decide)⟩

end Minterm.Expr
