import Minterm.Expr.Basic

/-! The chains of an expression: what the operands of a topmost chain are, and which chain is made from a
    list of operands. -/

namespace Minterm.Expr

/-! ### The operands of a chain -/

theorem factors_ne_nil (e : Expr) : e.factors ≠ [] := by
  induction e with
  | and a b iha _ => simp [iha]
  | _ => exact List.cons_ne_nil _ _

theorem terms_ne_nil (e : Expr) : e.terms ≠ [] := by
  induction e with
  | or a b iha _ => simp [iha]
  | _ => exact List.cons_ne_nil _ _

theorem isAnd_eq_false_of_isOr {e : Expr} (h : e.isOr = true) : e.isAnd = false := by
  cases e with
  | and a b => cases h
  | _ => rfl

theorem isOr_eq_false_of_isAnd {e : Expr} (h : e.isAnd = true) : e.isOr = false := by
  cases e with
  | or a b => cases h
  | _ => rfl

theorem isAnd_of_mem_factors {e f : Expr} (h : f ∈ e.factors) : f.isAnd = false := by
  induction e with
  | and a b iha ihb =>
    rcases List.mem_append.mp (factors_and a b ▸ h) with h | h
    · exact iha h
    · exact ihb h
  | _ => obtain rfl := List.mem_singleton.mp h; rfl

theorem isOr_of_mem_terms {e t : Expr} (h : t ∈ e.terms) : t.isOr = false := by
  induction e with
  | or a b iha ihb =>
    rcases List.mem_append.mp (terms_or a b ▸ h) with h | h
    · exact iha h
    · exact ihb h
  | _ => obtain rfl := List.mem_singleton.mp h; rfl

theorem size_le_of_mem_factors {e f : Expr} (h : f ∈ e.factors) : f.size ≤ e.size := by
  induction e with
  | and a b iha ihb =>
    simp only [size]
    rcases List.mem_append.mp (factors_and a b ▸ h) with h | h
    · have := iha h
      omega
    · have := ihb h
      omega
  | _ => obtain rfl := List.mem_singleton.mp h; exact Nat.le_refl _

theorem size_le_of_mem_terms {e t : Expr} (h : t ∈ e.terms) : t.size ≤ e.size := by
  induction e with
  | or a b iha ihb =>
    simp only [size]
    rcases List.mem_append.mp (terms_or a b ▸ h) with h | h
    · have := iha h
      omega
    · have := ihb h
      omega
  | _ => obtain rfl := List.mem_singleton.mp h; exact Nat.le_refl _

theorem size_factor_lt {a b f : Expr} (h : f ∈ (a.and b).factors) : f.size < (a.and b).size := by
  simp only [size]
  rcases List.mem_append.mp (factors_and a b ▸ h) with h | h
  · have := size_le_of_mem_factors h
    omega
  · have := size_le_of_mem_factors h
    omega

theorem size_term_lt {a b t : Expr} (h : t ∈ (a.or b).terms) : t.size < (a.or b).size := by
  simp only [size]
  rcases List.mem_append.mp (terms_or a b ▸ h) with h | h
  · have := size_le_of_mem_terms h
    omega
  · have := size_le_of_mem_terms h
    omega

theorem names_factors (e : Expr) : e.names = e.factors.flatMap names := by
  induction e with
  | and a b iha ihb => rw [names_and, factors_and, List.flatMap_append, ← iha, ← ihb]
  | _ => exact (List.flatMap_singleton ..).symm

theorem names_terms (e : Expr) : e.names = e.terms.flatMap names := by
  induction e with
  | or a b iha ihb => rw [names_or, terms_or, List.flatMap_append, ← iha, ← ihb]
  | _ => exact (List.flatMap_singleton ..).symm

/-! ### The chain over a list -/

theorem andAll_concat {es : List Expr} (h : es ≠ []) (e : Expr) : andAll (es ++ [e]) = .and (andAll es) e := by
  cases es with
  | nil => exact absurd rfl h
  | cons f fs => exact List.foldl_append

theorem orAll_concat {es : List Expr} (h : es ≠ []) (e : Expr) : orAll (es ++ [e]) = .or (orAll es) e := by
  cases es with
  | nil => exact absurd rfl h
  | cons f fs => exact List.foldl_append

theorem names_andAll (es : List Expr) : (andAll es).names = es.flatMap names := by
  cases es with
  | nil => rfl
  | cons e es =>
    rw [List.flatMap_cons, andAll]
    induction es generalizing e with
    | nil => exact (List.append_nil _).symm
    | cons f fs ih => rw [List.foldl_cons, ih, names_and, List.flatMap_cons, List.append_assoc]

theorem names_orAll (es : List Expr) : (orAll es).names = es.flatMap names := by
  cases es with
  | nil => rfl
  | cons e es =>
    rw [List.flatMap_cons, orAll]
    induction es generalizing e with
    | nil => exact (List.append_nil _).symm
    | cons f fs ih => rw [List.foldl_cons, ih, names_or, List.flatMap_cons, List.append_assoc]

theorem names_andAll_subset {es : List Expr} {bound : List String} (h : ∀ e ∈ es, e.names ⊆ bound) :
    (andAll es).names ⊆ bound := by
  intro name hname
  rw [names_andAll, List.mem_flatMap] at hname
  obtain ⟨e, he, hname⟩ := hname
  exact h e he hname

theorem names_orAll_subset {es : List Expr} {bound : List String} (h : ∀ e ∈ es, e.names ⊆ bound) :
    (orAll es).names ⊆ bound := by
  intro name hname
  rw [names_orAll, List.mem_flatMap] at hname
  obtain ⟨e, he, hname⟩ := hname
  exact h e he hname

theorem isAnd_foldl_and {e : Expr} (h : e.isAnd = true) (es : List Expr) : (es.foldl .and e).isAnd = true := by
  induction es generalizing e with
  | nil => exact h
  | cons f fs ih => exact ih rfl

theorem isAnd_andAll : ∀ {es : List Expr}, 2 ≤ es.length → (andAll es).isAnd = true
  | f :: g :: rest, _ => isAnd_foldl_and (e := f.and g) rfl rest

theorem isOr_foldl_or {e : Expr} (h : e.isOr = true) (es : List Expr) : (es.foldl .or e).isOr = true := by
  induction es generalizing e with
  | nil => exact h
  | cons f fs ih => exact ih rfl

theorem isOr_orAll : ∀ {es : List Expr}, 2 ≤ es.length → (orAll es).isOr = true
  | f :: g :: rest, _ => isOr_foldl_or (e := f.or g) rfl rest

theorem two_le_length_factors (a b : Expr) : 2 ≤ (a.and b).factors.length := by
  have ha := List.length_pos_iff.mpr (factors_ne_nil a)
  have hb := List.length_pos_iff.mpr (factors_ne_nil b)
  rw [factors_and, List.length_append]
  omega

theorem two_le_length_terms (a b : Expr) : 2 ≤ (a.or b).terms.length := by
  have ha := List.length_pos_iff.mpr (terms_ne_nil a)
  have hb := List.length_pos_iff.mpr (terms_ne_nil b)
  rw [terms_or, List.length_append]
  omega

theorem factors_foldl_and (e : Expr) {es : List Expr} (h : ∀ f ∈ es, f.isAnd = false) :
    (es.foldl .and e).factors = e.factors ++ es := by
  induction es generalizing e with
  | nil => exact (List.append_nil _).symm
  | cons f fs ih =>
    rw [List.foldl_cons, ih _ fun g hg => h g (List.mem_cons_of_mem _ hg), factors_and,
      factors_eq_singleton (h f List.mem_cons_self), List.append_assoc]
    rfl

theorem terms_foldl_or (e : Expr) {es : List Expr} (h : ∀ t ∈ es, t.isOr = false) :
    (es.foldl .or e).terms = e.terms ++ es := by
  induction es generalizing e with
  | nil => exact (List.append_nil _).symm
  | cons f fs ih =>
    rw [List.foldl_cons, ih _ fun g hg => h g (List.mem_cons_of_mem _ hg), terms_or,
      terms_eq_singleton (h f List.mem_cons_self), List.append_assoc]
    rfl

theorem factors_andAll {es : List Expr} (hne : es ≠ []) (h : ∀ f ∈ es, f.isAnd = false) :
    (andAll es).factors = es := by
  cases es with
  | nil => exact absurd rfl hne
  | cons f fs =>
    rw [andAll, factors_foldl_and f fun g hg => h g (List.mem_cons_of_mem _ hg),
      factors_eq_singleton (h f List.mem_cons_self)]
    rfl

theorem terms_orAll {es : List Expr} (hne : es ≠ []) (h : ∀ t ∈ es, t.isOr = false) :
    (orAll es).terms = es := by
  cases es with
  | nil => exact absurd rfl hne
  | cons f fs =>
    rw [orAll, terms_foldl_or f fun g hg => h g (List.mem_cons_of_mem _ hg),
      terms_eq_singleton (h f List.mem_cons_self)]
    rfl

end Minterm.Expr
