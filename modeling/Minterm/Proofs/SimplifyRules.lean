import Minterm.Expr.Simplify

/-! The rules of simplification as relations. `Conjoins a b c` says that the rules join `a` and `b` to
    `c` by a conjunction, `Disjoins a b c` by a disjunction, with one constructor for each rule. What
    holds of `conj` and `disj` is proved by induction on them, one case for each rule. -/

namespace Minterm.Expr

/-! ### Conjunction -/

inductive Conjoins : Expr → Expr → Expr → Prop
  | falseLeft (b : Expr) : Conjoins (.lit false) b (.lit false)
  | falseRight (a : Expr) : Conjoins a (.lit false) (.lit false)
  | trueLeft (b : Expr) : Conjoins (.lit true) b b
  | trueRight (a : Expr) : Conjoins a (.lit true) a
  | nested {a b₁ b₂ left whole : Expr} :
      Conjoins a b₁ left → Conjoins left b₂ whole → Conjoins a (.and b₁ b₂) whole
  | repeated {a b : Expr} : b ∈ a.factors → Conjoins a b a
  | opposed {a b f : Expr} : f ∈ a.factors → f.complements b = true → Conjoins a b (.lit false)
  | joined {a b : Expr} : a.isLit = false → b.isLit = false → b.isAnd = false → b ∉ a.factors →
      (∀ f ∈ a.factors, f.complements b = false) → Conjoins a b (.and a b)

theorem isLit_eq_false_of_ne {e : Expr} (hf : e ≠ .lit false) (ht : e ≠ .lit true) : e.isLit = false := by
  cases e with
  | lit b =>
    cases b with
    | false => exact absurd rfl hf
    | true => exact absurd rfl ht
  | _ => rfl

theorem isAnd_eq_false_of_ne {e : Expr} (h : ∀ a b, e ≠ .and a b) : e.isAnd = false := by
  cases e with
  | and a b => exact absurd rfl (h a b)
  | _ => rfl

theorem isOr_eq_false_of_ne {e : Expr} (h : ∀ a b, e ≠ .or a b) : e.isOr = false := by
  cases e with
  | or a b => exact absurd rfl (h a b)
  | _ => rfl

theorem conjoins_conj (a b : Expr) : Conjoins a b (a.conj b) := by
  induction a, b using conj.induct_unfolding with
  | case1 b => exact .falseLeft b
  | case2 a _ => exact .falseRight a
  | case3 b _ => exact .trueLeft b
  | case4 a _ _ => exact .trueRight a
  | case5 a b₁ b₂ _ _ left whole => exact .nested left whole
  | case6 a b _ _ _ _ _ hmem => exact .repeated hmem
  | case7 a b _ _ _ _ _ _ hany =>
    obtain ⟨f, hf, hc⟩ := List.any_eq_true.mp hany
    exact .opposed hf hc
  | case8 a b haf hbf hat hbt hand hmem hany =>
    refine .joined (isLit_eq_false_of_ne haf hat) (isLit_eq_false_of_ne hbf hbt) (isAnd_eq_false_of_ne hand) hmem ?_
    intro f hf
    have hall := List.any_eq_false.mp (Bool.not_eq_true _ ▸ hany) f hf
    exact Bool.eq_false_iff.mpr hall

theorem conjAll_nil : conjAll [] = .lit true := rfl

theorem conj_lit_true (a : Expr) : a.conj (.lit true) = a := by
  cases a with
  | lit b => cases b <;> rfl
  | _ => rfl

/-! ### Disjunction -/

inductive Disjoins : Expr → Expr → Expr → Prop
  | trueLeft (b : Expr) : Disjoins (.lit true) b (.lit true)
  | trueRight (a : Expr) : Disjoins a (.lit true) (.lit true)
  | falseLeft (b : Expr) : Disjoins (.lit false) b b
  | falseRight (a : Expr) : Disjoins a (.lit false) a
  | nested {a b₁ b₂ left whole : Expr} :
      Disjoins a b₁ left → Disjoins left b₂ whole → Disjoins a (.or b₁ b₂) whole
  | opposed {a b t : Expr} : t ∈ a.terms → t.complements b = true → Disjoins a b (.lit true)
  | repeated {a b : Expr} : b ∈ a.terms → Disjoins a b a
  | joined {a b : Expr} : a.isLit = false → b.isLit = false → b.isOr = false → b ∉ a.terms →
      (∀ t ∈ a.terms, t.complements b = false) → a.commonFactors b = [] → Disjoins a b (.or a b)
  /-- One side has no factors but the common ones, and absorbs the other. -/
  | absorbed {a b : Expr} : a.commonFactors b ≠ [] → a.otherFactors b = [] ∨ b.otherFactors a = [] →
      Disjoins a b (conjAll (a.commonFactors b))
  | factored {a b rest : Expr} : a.commonFactors b ≠ [] →
      Disjoins (conjAll (a.otherFactors b)) (conjAll (b.otherFactors a)) rest →
      Disjoins a b ((conjAll (a.commonFactors b)).conj rest)

theorem disj_of_true {a b : Expr} (h : a = .lit true ∨ b = .lit true) : a.disj b = .lit true := by
  rw [disj, disjBounded.eq_def, if_pos h]

theorem disj_false_left {b : Expr} (hb : b ≠ .lit true) : (lit false).disj b = b := by
  rw [disj, disjBounded.eq_def, if_neg (by simp [hb]), if_pos rfl]

theorem disj_false_right {a : Expr} (ht : a ≠ .lit true) (hf : a ≠ .lit false) : a.disj (lit false) = a := by
  rw [disj, disjBounded.eq_def, if_neg (by simp [ht]), if_neg hf, if_pos rfl]

theorem disj_or {a b₁ b₂ : Expr} (ht : a ≠ .lit true) (hf : a ≠ .lit false) :
    a.disj (b₁.or b₂) = (a.disj b₁).disj b₂ := by
  rw [disj, disjBounded.eq_def, if_neg (by simp [ht]), if_neg hf, if_neg (by simp)]
  rfl

theorem disj_of_isOr_eq_false {a b : Expr} (htrue : ¬(a = .lit true ∨ b = .lit true)) (haf : a ≠ .lit false)
    (hbf : b ≠ .lit false) (hor : b.isOr = false) : a.disj b =
      if a.terms.any (·.complements b) then .lit true
      else if b ∈ a.terms then a
      else if a.commonFactors b = [] then .or a b
      else if a.otherFactors b = [] then conjAll (a.commonFactors b)
      else if b.otherFactors a = [] then conjAll (a.commonFactors b)
      else (conjAll (a.commonFactors b)).conj ((conjAll (a.otherFactors b)).disj (conjAll (b.otherFactors a))) := by
  rw [disj, disjBounded.eq_def, if_neg htrue, if_neg haf, if_neg hbf]
  cases b with
  | or x y => cases hor
  | _ =>
    dsimp only
    split
    · rfl
    · split
      · rfl
      · split
        · rfl
        · split
          · rfl
          · split <;> rfl

/-- Absorption is factoring with `true` for the side that has no other factors. -/
theorem disj_of_common {a b : Expr} (htrue : ¬(a = .lit true ∨ b = .lit true)) (haf : a ≠ .lit false)
    (hbf : b ≠ .lit false) (hor : b.isOr = false) (hopp : ¬a.terms.any (·.complements b) = true) (hmem : b ∉ a.terms)
    (hcommon : a.commonFactors b ≠ []) :
    a.disj b =
      (conjAll (a.commonFactors b)).conj ((conjAll (a.otherFactors b)).disj (conjAll (b.otherFactors a))) := by
  rw [disj_of_isOr_eq_false htrue haf hbf hor, if_neg hopp, if_neg hmem, if_neg hcommon]
  by_cases hleft : a.otherFactors b = []
  · rw [if_pos hleft, hleft, conjAll_nil, disj_of_true (Or.inl rfl), conj_lit_true]
  · by_cases hright : b.otherFactors a = []
    · rw [if_neg hleft, if_pos hright, hright, conjAll_nil, disj_of_true (Or.inr rfl), conj_lit_true]
    · rw [if_neg hleft, if_neg hright]

theorem disjoins_disj (a b : Expr) : Disjoins a b (a.disj b) := by
  by_cases htrue : a = .lit true ∨ b = .lit true
  · rw [disj_of_true htrue]
    rcases htrue with rfl | rfl
    · exact .trueLeft b
    · exact .trueRight a
  obtain ⟨hat, hbt⟩ := not_or.mp htrue
  by_cases haf : a = .lit false
  · rw [haf, disj_false_left hbt]
    exact .falseLeft b
  by_cases hbf : b = .lit false
  · rw [hbf, disj_false_right hat haf]
    exact .falseRight a
  cases hor : b.isOr with
  | true =>
    cases b with
    | or b₁ b₂ =>
      rw [disj_or hat haf]
      exact .nested (disjoins_disj a b₁) (disjoins_disj (a.disj b₁) b₂)
    | _ => cases hor
  | false =>
    rw [disj_of_isOr_eq_false htrue haf hbf hor]
    by_cases hany : a.terms.any (·.complements b) = true
    · obtain ⟨t, ht, hc⟩ := List.any_eq_true.mp hany
      rw [if_pos hany]
      exact .opposed ht hc
    by_cases hmem : b ∈ a.terms
    · rw [if_neg hany, if_pos hmem]
      exact .repeated hmem
    by_cases hcommon : a.commonFactors b = []
    · rw [if_neg hany, if_neg hmem, if_pos hcommon]
      refine .joined (isLit_eq_false_of_ne haf hat) (isLit_eq_false_of_ne hbf hbt) hor hmem (fun t ht => ?_) hcommon
      exact Bool.eq_false_iff.mpr (List.any_eq_false.mp (Bool.not_eq_true _ ▸ hany) t ht)
    rw [if_neg hany, if_neg hmem, if_neg hcommon]
    by_cases hleft : a.otherFactors b = []
    · rw [if_pos hleft]
      exact .absorbed hcommon (Or.inl hleft)
    by_cases hright : b.otherFactors a = []
    · rw [if_neg hleft, if_pos hright]
      exact .absorbed hcommon (Or.inr hright)
    rw [if_neg hleft, if_neg hright]
    exact .factored hcommon (disjoins_disj (conjAll (a.otherFactors b)) (conjAll (b.otherFactors a)))
termination_by (a.size + b.size, b.size)
decreasing_by
  · exact Prod.Lex.left _ _ (size_remainders_lt hcommon hleft hright)
  · exact Prod.Lex.left _ _ (by simp only [size]; omega)
  · have hleft := size_disj_le a b₁
    refine Prod.Lex.right' _ ?_ ?_ <;> simp only [size] <;> omega

end Minterm.Expr
