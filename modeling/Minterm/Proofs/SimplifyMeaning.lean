import Minterm.Proofs.Chains
import Minterm.Proofs.Evaluation
import Minterm.Proofs.SimplifyRules

/-! Simplification keeps the meaning. Each rule keeps the value under every total assignment and brings
    in no new name; so a value that an expression has under a partial assignment stays. -/

namespace Minterm.Expr

variable {values : String → Bool}

/-! ### Chains -/

theorem denote_complements {a b : Expr} (h : a.complements b = true) : a.denote values = !b.denote values := by
  simp only [complements, Bool.or_eq_true, beq_iff_eq] at h
  rcases h with rfl | rfl
  · rfl
  · rw [denote, Bool.not_not]

/-- A conjunction is false if the negation of one of its factors holds. -/
theorem denote_and_of_opposed {a b f : Expr} (hf : f ∈ a.factors) (hc : f.complements b = true) :
    (a.denote values && b.denote values) = false := by
  cases hb : b.denote values with
  | false => exact Bool.and_false _
  | true =>
    rw [Bool.and_true, denote_factors, List.all_eq_false]
    exact ⟨f, hf, by rw [denote_complements hc, hb]; exact Bool.false_ne_true⟩

theorem denote_or_of_opposed {a b t : Expr} (ht : t ∈ a.terms) (hc : t.complements b = true) :
    (a.denote values || b.denote values) = true := by
  cases hb : b.denote values with
  | true => exact Bool.or_true _
  | false =>
    rw [Bool.or_false, denote_terms, List.any_eq_true]
    exact ⟨t, ht, by rw [denote_complements hc, hb]; rfl⟩

theorem denote_and_of_repeated {a b : Expr} (h : b ∈ a.factors) :
    (a.denote values && b.denote values) = a.denote values := by
  cases ha : a.denote values with
  | false => rfl
  | true =>
    rw [denote_factors, List.all_eq_true] at ha
    exact ha b h

theorem denote_or_of_repeated {a b : Expr} (h : b ∈ a.terms) :
    (a.denote values || b.denote values) = a.denote values := by
  cases hb : b.denote values with
  | false => exact Bool.or_false _
  | true =>
    rw [Bool.or_true, denote_terms (e := a)]
    exact (List.any_eq_true.mpr ⟨b, h, hb⟩).symm

/-! ### Values -/

theorem denote_negate (x : Expr) : x.negate.denote values = !x.denote values := by
  cases x with
  | not x => rw [negate, denote, Bool.not_not]
  | _ => rfl

theorem Conjoins.denote_eq {a b c : Expr} (h : Conjoins a b c) :
    c.denote values = (a.denote values && b.denote values) := by
  induction h with
  | falseLeft b => rfl
  | falseRight a => exact (Bool.and_false _).symm
  | trueLeft b => rfl
  | trueRight a => exact (Bool.and_true _).symm
  | nested _ _ ihl ihw => rw [ihw, ihl, denote, Bool.and_assoc]
  | repeated hmem => exact (denote_and_of_repeated hmem).symm
  | opposed hf hc => exact (denote_and_of_opposed hf hc).symm
  | joined => rfl

theorem denote_conj (a b : Expr) : (a.conj b).denote values = (a.denote values && b.denote values) :=
  (conjoins_conj a b).denote_eq

theorem denote_foldl_conj (acc : Expr) (es : List Expr) :
    (es.foldl conj acc).denote values = (acc.denote values && es.all (·.denote values)) := by
  induction es generalizing acc with
  | nil => exact (Bool.and_true _).symm
  | cons e es ih => rw [List.foldl_cons, ih, denote_conj, List.all_cons, Bool.and_assoc]

theorem denote_conjAll (es : List Expr) : (conjAll es).denote values = es.all (·.denote values) :=
  denote_foldl_conj (.lit true) es

/-- A conjunction is split into the factors that it shares with another one and the rest. -/
theorem denote_split (a b : Expr) :
    a.denote values = ((a.commonFactors b).all (·.denote values) && (a.otherFactors b).all (·.denote values)) := by
  rw [Bool.eq_iff_iff, denote_factors, Bool.and_eq_true, List.all_eq_true, List.all_eq_true, List.all_eq_true]
  constructor
  · intro h
    exact ⟨fun f hf => h f (mem_commonFactors.mp hf).1, fun f hf => h f ((List.mem_filter.mp hf).1)⟩
  · rintro ⟨hcommon, hother⟩ f hf
    by_cases hb : f ∈ b.factors
    · exact hcommon f (mem_commonFactors.mpr ⟨hf, hb⟩)
    · exact hother f (List.mem_filter.mpr ⟨hf, decide_eq_true hb⟩)

theorem all_commonFactors_comm (a b : Expr) (p : Expr → Bool) :
    (a.commonFactors b).all p = (b.commonFactors a).all p := by
  rw [Bool.eq_iff_iff, List.all_eq_true, List.all_eq_true]
  simp only [mem_commonFactors, and_comm]

theorem Disjoins.denote_eq {a b c : Expr} (h : Disjoins a b c) :
    c.denote values = (a.denote values || b.denote values) := by
  induction h with
  | trueLeft b => rfl
  | trueRight a => exact (Bool.or_true _).symm
  | falseLeft b => rfl
  | falseRight a => exact (Bool.or_false _).symm
  | nested _ _ ihl ihw => rw [ihw, ihl, denote, Bool.or_assoc]
  | opposed ht hc => exact (denote_or_of_opposed ht hc).symm
  | repeated hmem => exact (denote_or_of_repeated hmem).symm
  | joined => rfl
  | @absorbed a b _ hempty =>
    rw [denote_conjAll, denote_split a b, denote_split b a, all_commonFactors_comm b a, ← Bool.and_or_distrib_left]
    rcases hempty with h | h
    · rw [h, List.all_nil, Bool.true_or, Bool.and_true]
    · rw [h, List.all_nil, Bool.or_true, Bool.and_true]
  | @factored a b rest _ _ ih =>
    rw [denote_conj, ih, denote_conjAll, denote_conjAll, denote_conjAll, denote_split a b, denote_split b a,
      all_commonFactors_comm b a, Bool.and_or_distrib_left]

theorem denote_disj (a b : Expr) : (a.disj b).denote values = (a.denote values || b.denote values) :=
  (disjoins_disj a b).denote_eq

theorem denote_pass (e : Expr) : e.pass.denote values = e.denote values := by
  induction e with
  | lit b => rfl
  | var name => rfl
  | not x ih => rw [pass, denote_negate, ih, denote]
  | and a b iha ihb => rw [pass, denote_conj, iha, ihb, denote]
  | or a b iha ihb => rw [pass, denote_disj, iha, ihb, denote]

theorem denote_simplifyWithin (limit : Nat) (e : Expr) : (simplifyWithin limit e).denote values = e.denote values := by
  induction limit generalizing e with
  | zero => rfl
  | succ limit ih =>
    rw [simplifyWithin]
    split
    · exact denote_pass e
    · rw [ih, denote_pass]

/-! ### Names -/

theorem names_negate (x : Expr) : x.negate.names = x.names := by
  cases x <;> rfl

theorem Conjoins.names_subset {a b c : Expr} (h : Conjoins a b c) : c.names ⊆ a.names ++ b.names := by
  induction h with
  | falseLeft b => exact List.nil_subset _
  | falseRight a => exact List.nil_subset _
  | trueLeft b => exact List.subset_append_right _ _
  | trueRight a => exact List.subset_append_left _ _
  | @nested a b₁ b₂ left whole _ _ ihl ihw =>
    rw [names_and, ← List.append_assoc]
    refine List.Subset.trans ihw (List.append_subset.mpr ⟨?_, List.subset_append_right _ _⟩)
    exact List.Subset.trans ihl (List.subset_append_left _ _)
  | repeated => exact List.subset_append_left _ _
  | opposed => exact List.nil_subset _
  | joined => rw [names_and]; exact List.Subset.refl _

theorem names_conj_subset (a b : Expr) : (a.conj b).names ⊆ a.names ++ b.names := (conjoins_conj a b).names_subset

/-- Names of a chain are names of its parts. -/
theorem names_conjAll {es : List Expr} {bound : List String} (h : ∀ e ∈ es, e.names ⊆ bound) :
    (conjAll es).names ⊆ bound := by
  suffices fold : ∀ acc : Expr, acc.names ⊆ bound → (es.foldl conj acc).names ⊆ bound from
    fold (.lit true) (List.nil_subset _)
  induction es with
  | nil => exact fun acc hacc => hacc
  | cons e es ih =>
    intro acc hacc
    refine ih (fun e he => h e (List.mem_cons_of_mem _ he)) (acc.conj e) ?_
    exact List.Subset.trans (names_conj_subset acc e) (List.append_subset.mpr ⟨hacc, h e List.mem_cons_self⟩)

theorem names_subset_of_factor {e f : Expr} (h : f ∈ e.factors) : f.names ⊆ e.names := by
  rw [names_factors e]
  exact fun _ hn => List.mem_flatMap.mpr ⟨f, h, hn⟩

theorem names_commonFactors (a b : Expr) : (conjAll (a.commonFactors b)).names ⊆ a.names :=
  names_conjAll fun _ hf => names_subset_of_factor (mem_commonFactors.mp hf).1

theorem names_otherFactors (a b : Expr) : (conjAll (a.otherFactors b)).names ⊆ a.names :=
  names_conjAll fun _ hf => names_subset_of_factor (List.mem_filter.mp hf).1

theorem Disjoins.names_subset {a b c : Expr} (h : Disjoins a b c) : c.names ⊆ a.names ++ b.names := by
  induction h with
  | trueLeft b => exact List.nil_subset _
  | trueRight a => exact List.nil_subset _
  | falseLeft b => exact List.subset_append_right _ _
  | falseRight a => exact List.subset_append_left _ _
  | nested _ _ ihl ihw =>
    rw [names_or, ← List.append_assoc]
    refine List.Subset.trans ihw (List.append_subset.mpr ⟨?_, List.subset_append_right _ _⟩)
    exact List.Subset.trans ihl (List.subset_append_left _ _)
  | opposed => exact List.nil_subset _
  | repeated => exact List.subset_append_left _ _
  | joined => rw [names_or]; exact List.Subset.refl _
  | @absorbed a b => exact List.Subset.trans (names_commonFactors a b) (List.subset_append_left _ _)
  | @factored a b rest _ _ ih =>
    refine List.Subset.trans (names_conj_subset _ rest) (List.append_subset.mpr ⟨?_, ?_⟩)
    · exact List.Subset.trans (names_commonFactors a b) (List.subset_append_left _ _)
    · refine List.Subset.trans ih (List.append_subset.mpr ⟨?_, ?_⟩)
      · exact List.Subset.trans (names_otherFactors a b) (List.subset_append_left _ _)
      · exact List.Subset.trans (names_otherFactors b a) (List.subset_append_right _ _)

theorem names_pass_subset (e : Expr) : e.pass.names ⊆ e.names := by
  induction e with
  | lit b => exact List.Subset.refl _
  | var name => exact List.Subset.refl _
  | not x ih => rw [pass, names_negate]; exact ih
  | and a b iha ihb =>
    rw [names_and]
    refine List.Subset.trans (names_conj_subset _ _) (List.append_subset.mpr ⟨?_, ?_⟩)
    · exact List.Subset.trans iha (List.subset_append_left _ _)
    · exact List.Subset.trans ihb (List.subset_append_right _ _)
  | or a b iha ihb =>
    rw [names_or]
    refine List.Subset.trans (disjoins_disj _ _).names_subset (List.append_subset.mpr ⟨?_, ?_⟩)
    · exact List.Subset.trans iha (List.subset_append_left _ _)
    · exact List.Subset.trans ihb (List.subset_append_right _ _)

theorem names_simplifyWithin_subset (limit : Nat) (e : Expr) : (simplifyWithin limit e).names ⊆ e.names := by
  induction limit generalizing e with
  | zero => exact List.Subset.refl _
  | succ limit ih =>
    rw [simplifyWithin]
    split
    · exact names_pass_subset e
    · exact List.Subset.trans (ih e.pass) (names_pass_subset e)

/-! ### Partial assignments -/

theorem eval_simplifyWithin {value? : String → Option Bool} {limit : Nat} {e : Expr} {b : Bool}
    (h : e.eval value? = .ok b) : (simplifyWithin limit e).eval value? = .ok b := by
  obtain ⟨hbound, hvalue⟩ := eval_eq_ok_iff.mp h
  refine eval_eq_ok_iff.mpr ⟨fun name hn => ?_, ?_⟩
  · exact hbound name (names_simplifyWithin_subset limit e hn)
  · rw [denote_simplifyWithin]
    exact hvalue

theorem vars_simplifyWithin_subset (limit : Nat) (e : Expr) : (simplifyWithin limit e).vars ⊆ e.vars :=
  fun _ hn => mem_vars.mpr (names_simplifyWithin_subset limit e (mem_vars.mp hn))

/-- A value under a partial assignment stays, however many passes are made, and no variable is new. -/
theorem simplification_keeps_value (limit : Nat) (e : Expr) :
    (∀ (value? : String → Option Bool) (b : Bool),
      e.eval value? = .ok b → (simplifyWithin limit e).eval value? = .ok b) ∧
      (simplifyWithin limit e).vars ⊆ e.vars :=
  ⟨fun _ _ => eval_simplifyWithin, vars_simplifyWithin_subset limit e⟩

/-- Factoring, with `y` false and nothing bound beside the three names. -/
theorem simplification_keeps_value_factored :
    let e : Expr := .or (.and (.var "x") (.var "y")) (.and (.var "x") (.var "z"))
    let value? : String → Option Bool := fun name => [("x", true), ("y", false), ("z", true)].lookup name
    e.eval value? = .ok true ∧ (simplifyWithin 8 e).eval value? = .ok true := by
  refine ⟨rfl, ?_⟩
  exact (simplification_keeps_value 8 _).1 _ _ rfl

end Minterm.Expr
