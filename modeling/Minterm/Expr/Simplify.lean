import Minterm.Expr.Basic

/-! Algebraic simplification. `negate`, `conj` and `disj` join trees that are simplified already and
    apply the rules at the new node:

    - `!!x ⇒ x`, and `!` of a constant is the other constant;
    - `x & false ⇒ false`, `x & true ⇒ x`, `x & x ⇒ x`, `x & !x ⇒ false`;
    - `x | true ⇒ true`, `x | false ⇒ x`, `x | !x ⇒ true`, `x | x ⇒ x`;
    - `a & b | a & c ⇒ a & (b | c)`, and `a | a & b ⇒ a` where a side has no other factor.

    Chains are kept nested to the left. No rule makes a tree larger (`size_conj_le`,
    `size_disj_le`), which is also why `disj` comes to an end. -/

namespace Minterm.Expr

/-! ### Negation and conjunction -/

def negate : Expr → Expr
  | .not x => x
  | .lit b => .lit (!b)
  | x => .not x

/-- The simplified conjunction of two simplified trees. -/
def conj (a b : Expr) : Expr :=
  match a, b with
  | .lit false, _ => .lit false
  | _, .lit false => .lit false
  | .lit true, b => b
  | a, .lit true => a
  | a, .and b₁ b₂ => (a.conj b₁).conj b₂
  | a, b =>
    if b ∈ a.factors then a
    else if a.factors.any (·.complements b) then .lit false
    else .and a b

/-- The simplified conjunction of a list. -/
def conjAll (factors : List Expr) : Expr := factors.foldl conj (.lit true)

/-! ### Size -/

/-- The size of a chain over a list, plus one. -/
def chainSize : List Expr → Nat
  | [] => 0
  | e :: es => e.size + 1 + chainSize es

@[simp] theorem chainSize_nil : chainSize [] = 0 := rfl

@[simp] theorem chainSize_cons (e : Expr) (es : List Expr) : chainSize (e :: es) = e.size + 1 + chainSize es := rfl

@[simp] theorem chainSize_append (es fs : List Expr) : chainSize (es ++ fs) = chainSize es + chainSize fs := by
  induction es with
  | nil => simp
  | cons e es ih => rw [List.cons_append, chainSize_cons, chainSize_cons, ih, ← Nat.add_assoc]

theorem chainSize_factors (e : Expr) : chainSize e.factors = e.size + 1 := by
  induction e with
  | and a b iha ihb => simp only [factors_and, chainSize_append, iha, ihb, size]; omega
  | _ => rfl

theorem chainSize_filter_add (p : Expr → Bool) (es : List Expr) :
    chainSize (es.filter p) + chainSize (es.filter fun e => !p e) = chainSize es := by
  induction es with
  | nil => rfl
  | cons e es ih => cases hp : p e <;> simp [hp] <;> omega

theorem chainSize_eraseDups_le (es : List Expr) : chainSize es.eraseDups ≤ chainSize es := by
  match es with
  | [] => exact Nat.le_refl _
  | e :: es =>
    have ih := chainSize_eraseDups_le (es.filter fun x => !x == e)
    have hf := chainSize_filter_add (fun x => x == e) es
    rw [List.eraseDups_cons, chainSize_cons, chainSize_cons]
    omega
termination_by es.length
decreasing_by
  have := List.length_filter_le (fun x => !x == e) es
  grind

theorem two_le_chainSize {es : List Expr} (h : es ≠ []) : 2 ≤ chainSize es := by
  cases es with
  | nil => exact absurd rfl h
  | cons e es =>
    have := e.size_pos
    rw [chainSize_cons]
    omega

theorem size_negate_le (x : Expr) : x.negate.size ≤ x.size + 1 := by
  cases x <;> simp only [negate, size] <;> omega

theorem size_conj_le (a b : Expr) : (a.conj b).size ≤ 1 + a.size + b.size := by
  fun_induction conj a b <;> grind [size]

theorem size_foldl_conj_le (acc : Expr) (es : List Expr) :
    (es.foldl conj acc).size ≤ acc.size + chainSize es := by
  induction es generalizing acc with
  | nil => exact Nat.le_refl _
  | cons e es ih =>
    have h₁ := ih (acc.conj e)
    have h₂ := size_conj_le acc e
    rw [List.foldl_cons, chainSize_cons]
    omega

theorem size_conjAll_lt {es : List Expr} (h : es ≠ []) : (conjAll es).size < chainSize es := by
  cases es with
  | nil => exact absurd rfl h
  | cons e es =>
    have hfold := size_foldl_conj_le ((lit true).conj e) es
    have hfirst : ((lit true).conj e).size ≤ e.size := by
      unfold conj
      split <;> grind [size]
    rw [conjAll, List.foldl_cons, chainSize_cons]
    omega

/-! ### Disjunction -/

/-- The factors that both sides have, in the order of `a`. -/
def commonFactors (a b : Expr) : List Expr := (a.factors.filter (· ∈ b.factors)).eraseDups

/-- The factors of `a` that `b` does not have. -/
def otherFactors (a b : Expr) : List Expr := a.factors.filter (· ∉ b.factors)

theorem chainSize_common_add_other (a b : Expr) :
    chainSize (a.commonFactors b) + chainSize (a.otherFactors b) ≤ a.size + 1 := by
  have hsplit := chainSize_filter_add (fun e => decide (e ∈ b.factors)) a.factors
  have hdups := chainSize_eraseDups_le (a.factors.filter fun e => decide (e ∈ b.factors))
  have hfactors := chainSize_factors a
  simp only [commonFactors, otherFactors, decide_not]
  omega

theorem mem_commonFactors {a b e : Expr} : e ∈ a.commonFactors b ↔ e ∈ a.factors ∧ e ∈ b.factors := by
  simp [commonFactors]

/-- A side that shares a factor has a smaller remainder. -/
theorem chainSize_other_lt {a b : Expr} (h : a.commonFactors b ≠ []) : chainSize (b.otherFactors a) < b.size := by
  obtain ⟨e, he⟩ := List.exists_mem_of_ne_nil _ h
  have hmem : e ∈ b.factors.filter (· ∈ a.factors) := by
    rw [mem_commonFactors] at he
    simp [he]
  have htwo := two_le_chainSize (List.ne_nil_of_mem hmem)
  have hsplit := chainSize_filter_add (fun e => decide (e ∈ a.factors)) b.factors
  have hfactors := chainSize_factors b
  simp only [otherFactors, decide_not]
  omega

/-- If neither side is used up, the remainders are smaller than the sides together. -/
theorem size_remainders_lt {a b : Expr} (hc : a.commonFactors b ≠ []) (hl : a.otherFactors b ≠ [])
    (hr : b.otherFactors a ≠ []) :
    (conjAll (a.otherFactors b)).size + (conjAll (b.otherFactors a)).size < a.size + b.size := by
  have hsum := chainSize_common_add_other a b
  have hother := chainSize_other_lt hc
  have hleft := size_conjAll_lt hl
  have hright := size_conjAll_lt hr
  omega

theorem size_factored_le {a b rest : Expr} (hc : a.commonFactors b ≠ []) (hl : a.otherFactors b ≠ [])
    (hr : b.otherFactors a ≠ [])
    (hrest : rest.size ≤ 1 + (conjAll (a.otherFactors b)).size + (conjAll (b.otherFactors a)).size) :
    ((conjAll (a.commonFactors b)).conj rest).size ≤ 1 + a.size + b.size := by
  have hsum := chainSize_common_add_other a b
  have hother := chainSize_other_lt hc
  have hcommon := size_conjAll_lt hc
  have hleft := size_conjAll_lt hl
  have hright := size_conjAll_lt hr
  have hconj := size_conj_le (conjAll (a.commonFactors b)) rest
  omega

theorem size_absorbed_le {a b : Expr} (hc : a.commonFactors b ≠ []) :
    (conjAll (a.commonFactors b)).size ≤ 1 + a.size + b.size := by
  have hsum := chainSize_common_add_other a b
  have hcommon := size_conjAll_lt hc
  omega

theorem size_nested_le {a b₁ b₂ left whole : Expr} (hl : left.size ≤ 1 + a.size + b₁.size)
    (hw : whole.size ≤ 1 + left.size + b₂.size) : whole.size ≤ 1 + a.size + (b₁.or b₂).size := by
  simp only [size]
  omega

theorem size_true_le (a b : Expr) : (lit true).size ≤ 1 + a.size + b.size := by
  simp only [size]
  omega

theorem size_or_le (a b : Expr) : (a.or b).size ≤ 1 + a.size + b.size := Nat.le_refl _

theorem size_left_le (a b : Expr) : a.size ≤ 1 + a.size + b.size := by omega

theorem size_right_le (a b : Expr) : b.size ≤ 1 + a.size + b.size := by omega

/-- The simplified disjunction with a bound on its size, which the recursion needs to come to an end. -/
def disjBounded (a b : Expr) : { e : Expr // e.size ≤ 1 + a.size + b.size } :=
  if a = .lit true ∨ b = .lit true then ⟨.lit true, size_true_le a b⟩
  else if a = .lit false then ⟨b, size_right_le a b⟩
  else if b = .lit false then ⟨a, size_left_le a b⟩
  else match b with
    | .or b₁ b₂ =>
      match a.disjBounded b₁ with
      | ⟨left, hl⟩ =>
        match left.disjBounded b₂ with
        | ⟨whole, hw⟩ => ⟨whole, size_nested_le hl hw⟩
    | b =>
      if a.terms.any (·.complements b) then ⟨.lit true, size_true_le a b⟩
      else if b ∈ a.terms then ⟨a, size_left_le a b⟩
      else if hc : a.commonFactors b = [] then ⟨.or a b, size_or_le a b⟩
      else if hl : a.otherFactors b = [] then ⟨conjAll (a.commonFactors b), size_absorbed_le hc⟩
      else if hr : b.otherFactors a = [] then ⟨conjAll (a.commonFactors b), size_absorbed_le hc⟩
      else
        match (conjAll (a.otherFactors b)).disjBounded (conjAll (b.otherFactors a)) with
        | ⟨rest, hrest⟩ => ⟨(conjAll (a.commonFactors b)).conj rest, size_factored_le hc hl hr hrest⟩
termination_by (a.size + b.size, b.size)
decreasing_by
  · exact Prod.Lex.left _ _ (by simp only [size]; omega)
  · refine Prod.Lex.right' _ (Nat.le_trans (Nat.add_le_add_right hl _) ?_) ?_
    · show 1 + a.size + b₁.size + b₂.size ≤ a.size + (1 + b₁.size + b₂.size)
      omega
    · show b₂.size < 1 + b₁.size + b₂.size
      omega
  · exact Prod.Lex.left _ _ (size_remainders_lt hc hl hr)

/-- The simplified disjunction of two simplified trees. A side whose factors the other side all has
    absorbs it. -/
def disj (a b : Expr) : Expr := (a.disjBounded b).val

theorem size_disj_le (a b : Expr) : (a.disj b).size ≤ 1 + a.size + b.size := (a.disjBounded b).property

/-! ### Passes over a tree -/

/-- Simplifies every node once, from the leaves to the root. -/
def pass : Expr → Expr
  | .not x => x.pass.negate
  | .and a b => a.pass.conj b.pass
  | .or a b => a.pass.disj b.pass
  | e => e

/-- Passes over the tree until it no longer changes, at most `limit` times. -/
def simplifyWithin : Nat → Expr → Expr
  | 0, e => e
  | limit + 1, e =>
    let next := e.pass
    if next = e then next else simplifyWithin limit next

/-- How many passes `simplify` makes at most. -/
def maxPasses : Nat := 8

def simplify (e : Expr) : Expr := simplifyWithin maxPasses e

theorem size_pass_le (e : Expr) : e.pass.size ≤ e.size := by
  induction e with
  | lit b => exact Nat.le_refl _
  | var name => exact Nat.le_refl _
  | not x ih =>
    have := size_negate_le x.pass
    simp only [pass, size]
    omega
  | and a b iha ihb =>
    have := size_conj_le a.pass b.pass
    simp only [pass, size]
    omega
  | or a b iha ihb =>
    have := size_disj_le a.pass b.pass
    simp only [pass, size]
    omega

end Minterm.Expr
