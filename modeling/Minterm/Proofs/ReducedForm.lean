import Minterm.Proofs.SimplifyRules

/-! The form of simplified trees. A tree is reduced if no rule applies to any of its nodes: no constant
    occurs, no `!` stands above a `!`, chains nest to the left, the operands of a chain neither repeat
    nor oppose each other, and the two sides of a `|` share no factor. One pass makes a constant or a
    reduced tree, and leaves both as they are. -/

namespace Minterm.Expr

/-- A negation. -/
def isNot : Expr → Bool
  | .not _ => true
  | _ => false

/-- No rule applies at any node. -/
inductive Reduced : Expr → Prop
  | var (name : String) : Reduced (.var name)
  | not {x : Expr} : Reduced x → x.isNot = false → Reduced (.not x)
  | and {a b : Expr} : Reduced a → Reduced b → b.isAnd = false → b ∉ a.factors →
      (∀ f ∈ a.factors, f.complements b = false) → Reduced (.and a b)
  | or {a b : Expr} : Reduced a → Reduced b → b.isOr = false → b ∉ a.terms →
      (∀ t ∈ a.terms, t.complements b = false) → a.commonFactors b = [] → Reduced (.or a b)

/-- A constant or a reduced tree. -/
def Simplified (e : Expr) : Prop := e.isLit = true ∨ Reduced e

namespace Reduced

theorem isLit_eq_false {e : Expr} (h : Reduced e) : e.isLit = false := by
  cases h <;> rfl

theorem simplified {e : Expr} (h : Reduced e) : Simplified e := Or.inr h

/-- Only a constant has no names. -/
theorem names_ne_nil {e : Expr} (h : Reduced e) : e.names ≠ [] := by
  induction h with
  | var name => exact List.cons_ne_nil _ _
  | not _ _ ih => exact ih
  | and _ _ _ _ _ iha _ | or _ _ _ _ _ _ iha _ => simp [iha]

theorem factor {e f : Expr} (h : Reduced e) (hf : f ∈ e.factors) : Reduced f := by
  induction h with
  | and ha hb hand _ _ iha _ =>
    rw [factors_and, factors_eq_singleton hand, List.mem_append, List.mem_singleton] at hf
    rcases hf with hf | rfl
    · exact iha hf
    · exact hb
  | var name =>
    obtain rfl := List.mem_singleton.mp hf
    exact .var name
  | not hx hnot =>
    obtain rfl := List.mem_singleton.mp hf
    exact .not hx hnot
  | or ha hb hor hmem hopp hcommon =>
    obtain rfl := List.mem_singleton.mp hf
    exact .or ha hb hor hmem hopp hcommon

end Reduced

theorem isAnd_eq_false_of_isLit {e : Expr} (h : e.isLit = true) : e.isAnd = false := by
  cases e with
  | and a b => cases h
  | _ => rfl

theorem Simplified.lit (b : Bool) : Simplified (.lit b) := Or.inl rfl

theorem Simplified.reduced {e : Expr} (h : Simplified e) (hlit : e.isLit = false) : Reduced e := by
  rcases h with h | h
  · rw [hlit] at h
    cases h
  · exact h

/-! ### The rules keep the form -/

theorem Conjoins.simplified {a b c : Expr} (h : Conjoins a b c) (ha : Simplified a) (hb : Simplified b) :
    Simplified c := by
  induction h with
  | falseLeft b => exact .lit false
  | falseRight a => exact .lit false
  | trueLeft b => exact hb
  | trueRight a => exact ha
  | nested _ _ ihl ihw =>
    cases hb.reduced rfl with
    | and hb₁ hb₂ => exact ihw (ihl ha hb₁.simplified) hb₂.simplified
  | repeated => exact ha
  | opposed => exact .lit false
  | joined hal hbl hand hmem hopp => exact Or.inr (.and (ha.reduced hal) (hb.reduced hbl) hand hmem hopp)

theorem simplified_conj {a b : Expr} (ha : Simplified a) (hb : Simplified b) : Simplified (a.conj b) :=
  (conjoins_conj a b).simplified ha hb

theorem simplified_conjAll {es : List Expr} (h : ∀ e ∈ es, Simplified e) : Simplified (conjAll es) := by
  suffices fold : ∀ acc : Expr, Simplified acc → Simplified (es.foldl conj acc) from fold (.lit true) (.lit true)
  induction es with
  | nil => exact fun acc hacc => hacc
  | cons e es ih =>
    intro acc hacc
    exact ih (fun e he => h e (List.mem_cons_of_mem _ he)) _ (simplified_conj hacc (h e List.mem_cons_self))

theorem Simplified.factor {e f : Expr} (h : Simplified e) (hf : f ∈ e.factors) : Simplified f := by
  rcases h with hlit | hred
  · rw [factors_eq_singleton (isAnd_eq_false_of_isLit hlit), List.mem_singleton] at hf
    rw [hf]
    exact Or.inl hlit
  · exact (hred.factor hf).simplified

theorem simplified_commonFactors {a : Expr} (b : Expr) (ha : Simplified a) : Simplified (conjAll (a.commonFactors b)) :=
  simplified_conjAll fun _ hf => ha.factor (mem_commonFactors.mp hf).1

theorem simplified_otherFactors {a : Expr} (b : Expr) (ha : Simplified a) : Simplified (conjAll (a.otherFactors b)) :=
  simplified_conjAll fun _ hf => ha.factor (List.mem_filter.mp hf).1

theorem Disjoins.simplified {a b c : Expr} (h : Disjoins a b c) (ha : Simplified a) (hb : Simplified b) :
    Simplified c := by
  induction h with
  | trueLeft b => exact .lit true
  | trueRight a => exact .lit true
  | falseLeft b => exact hb
  | falseRight a => exact ha
  | nested _ _ ihl ihw =>
    cases hb.reduced rfl with
    | or hb₁ hb₂ => exact ihw (ihl ha hb₁.simplified) hb₂.simplified
  | opposed => exact .lit true
  | repeated => exact ha
  | joined hal hbl hor hmem hopp hcommon =>
    exact Or.inr (.or (ha.reduced hal) (hb.reduced hbl) hor hmem hopp hcommon)
  | absorbed => exact simplified_commonFactors _ ha
  | factored _ _ ih =>
    exact simplified_conj (simplified_commonFactors _ ha)
      (ih (simplified_otherFactors _ ha) (simplified_otherFactors _ hb))

theorem simplified_negate {x : Expr} (h : Simplified x) : Simplified x.negate := by
  cases x with
  | lit b => exact .lit _
  | not x =>
    cases h.reduced rfl with
    | not hx _ => exact hx.simplified
  | var name | and a b | or a b => exact Or.inr (.not (h.reduced rfl) rfl)

theorem simplified_pass (e : Expr) : Simplified e.pass := by
  induction e with
  | lit b => exact .lit b
  | var name => exact Or.inr (.var name)
  | not x ih => exact simplified_negate ih
  | and a b iha ihb => exact simplified_conj iha ihb
  | or a b iha ihb => exact (disjoins_disj _ _).simplified iha ihb

/-! ### No rule applies -/

theorem Conjoins.eq_and {a b c : Expr} (h : Conjoins a b c) (hal : a.isLit = false) (hbl : b.isLit = false)
    (hand : b.isAnd = false) (hmem : b ∉ a.factors) (hopp : ∀ f ∈ a.factors, f.complements b = false) :
    c = .and a b := by
  cases h with
  | falseLeft | trueLeft => cases hal
  | falseRight | trueRight => cases hbl
  | nested => cases hand
  | repeated h => exact absurd h hmem
  | opposed hf hc =>
    rw [hopp _ hf] at hc
    cases hc
  | joined => rfl

theorem Disjoins.eq_or {a b c : Expr} (h : Disjoins a b c) (hal : a.isLit = false) (hbl : b.isLit = false)
    (hor : b.isOr = false) (hmem : b ∉ a.terms) (hopp : ∀ t ∈ a.terms, t.complements b = false)
    (hcommon : a.commonFactors b = []) : c = .or a b := by
  cases h with
  | falseLeft | trueLeft => cases hal
  | falseRight | trueRight => cases hbl
  | nested => cases hor
  | repeated h => exact absurd h hmem
  | opposed ht hc =>
    rw [hopp _ ht] at hc
    cases hc
  | joined => rfl
  | absorbed h => exact absurd hcommon h
  | factored h => exact absurd hcommon h

theorem negate_of_isNot_eq_false {x : Expr} (hlit : x.isLit = false) (hnot : x.isNot = false) : x.negate = .not x := by
  cases x with
  | lit b => cases hlit
  | not x => cases hnot
  | _ => rfl

theorem Reduced.pass_eq {e : Expr} (h : Reduced e) : e.pass = e := by
  induction h with
  | var name => rfl
  | not hx hnot ih => rw [pass, ih, negate_of_isNot_eq_false hx.isLit_eq_false hnot]
  | and ha hb hand hmem hopp iha ihb =>
    rw [pass, iha, ihb]
    exact (conjoins_conj _ _).eq_and ha.isLit_eq_false hb.isLit_eq_false hand hmem hopp
  | or ha hb hor hmem hopp hcommon iha ihb =>
    rw [pass, iha, ihb]
    exact (disjoins_disj _ _).eq_or ha.isLit_eq_false hb.isLit_eq_false hor hmem hopp hcommon

theorem Simplified.pass_eq {e : Expr} (h : Simplified e) : e.pass = e := by
  rcases h with h | h
  · cases e with
    | lit b => rfl
    | _ => cases h
  · exact h.pass_eq

/-! ### Chains of separate operands -/

/-- Two operands that neither repeat nor oppose each other. -/
def Apart (f g : Expr) : Prop := f ≠ g ∧ f.complements g = false

theorem Reduced.and_of_apart {a f : Expr} (ha : Reduced a) (hf : Reduced f) (hand : f.isAnd = false)
    (hapart : ∀ g ∈ a.factors, Apart g f) : Reduced (.and a f) :=
  .and ha hf hand (fun hmem => (hapart f hmem).1 rfl) fun g hg => (hapart g hg).2

/-- Operands that are added to a chain they stand apart from are joined as they are. -/
theorem foldl_conj_eq {a : Expr} {es : List Expr} (ha : Reduced a) (hes : ∀ f ∈ es, Reduced f ∧ f.isAnd = false)
    (hapart : (a.factors ++ es).Pairwise Apart) :
    es.foldl conj a = es.foldl .and a ∧ Reduced (es.foldl .and a) := by
  induction es generalizing a with
  | nil => exact ⟨rfl, ha⟩
  | cons f fs ih =>
    obtain ⟨hf, hand⟩ := hes f List.mem_cons_self
    have hafter := List.pairwise_append.mp hapart
    have hnode : Reduced (a.and f) :=
      ha.and_of_apart hf hand fun g hg => hafter.2.2 g hg f List.mem_cons_self
    have hconj : a.conj f = a.and f :=
      (conjoins_conj a f).eq_and ha.isLit_eq_false hf.isLit_eq_false hand
        (fun hmem => (hafter.2.2 f hmem f List.mem_cons_self).1 rfl) fun g hg => (hafter.2.2 g hg f List.mem_cons_self).2
    rw [List.foldl_cons, List.foldl_cons, hconj]
    refine ih hnode (fun g hg => hes g (List.mem_cons_of_mem _ hg)) ?_
    rw [factors_and, factors_eq_singleton hand, List.append_assoc]
    exact hapart

/-- A chain on the right is taken apart and its operands are added one after another. -/
theorem conj_foldl_and {a : Expr} (hlit : a.isLit = false) (g : Expr) (gs : List Expr) :
    a.conj (gs.foldl .and g) = gs.foldl conj (a.conj g) := by
  induction gs generalizing g with
  | nil => rfl
  | cons h hs ih =>
    rw [List.foldl_cons, List.foldl_cons, ih (g.and h)]
    congr 1
    cases a with
    | lit b => cases hlit
    | _ => rw [conj] <;> simp

/-! ### Repeated passes -/

theorem Simplified.simplifyWithin_eq {e : Expr} (h : Simplified e) (limit : Nat) : simplifyWithin limit e = e := by
  cases limit with
  | zero => rfl
  | succ limit => rw [simplifyWithin, if_pos h.pass_eq, h.pass_eq]

/-- The first pass does all the work. -/
theorem simplifyWithin_succ (limit : Nat) (e : Expr) : simplifyWithin (limit + 1) e = e.pass := by
  rw [simplifyWithin]
  split
  · rfl
  · exact (simplified_pass e).simplifyWithin_eq limit

theorem simplify_eq_pass (e : Expr) : e.simplify = e.pass := simplifyWithin_succ 7 e

theorem simplified_simplify (e : Expr) : Simplified e.simplify := by
  rw [simplify_eq_pass]
  exact simplified_pass e

/-- Any number of passes makes the tree of the first one, and no further pass changes it. So the cap on the
    passes cuts nothing off, and simplification is idempotent. -/
theorem one_pass_suffices (e : Expr) :
    (∀ limit, 1 ≤ limit →
      simplifyWithin limit e = simplifyWithin 1 e ∧
        ∀ again, simplifyWithin again (simplifyWithin limit e) = simplifyWithin limit e) ∧
      (∀ limit, maxPasses ≤ limit → simplifyWithin limit e = e.simplify) ∧ e.simplify.simplify = e.simplify := by
  have hpass {limit : Nat} (h : 1 ≤ limit) : simplifyWithin limit e = e.pass := by
    obtain ⟨fewer, rfl⟩ := Nat.exists_eq_add_of_le' h
    exact simplifyWithin_succ fewer e
  refine ⟨fun limit h => ⟨?_, fun again => ?_⟩, fun limit h => ?_, (simplified_simplify e).simplifyWithin_eq maxPasses⟩
  · rw [hpass h, hpass (Nat.le_refl 1)]
  · rw [hpass h]
    exact (simplified_pass e).simplifyWithin_eq again
  · rw [hpass (Nat.le_trans (by decide) h), simplify_eq_pass]

/-- A double negation uncovers a factor that stands in the chain on its right once more. -/
theorem one_pass_suffices_repeated :
    let e : Expr := .and (.not (.not (.var "x"))) (.and (.var "y") (.var "x"))
    let simplified : Expr := .and (.var "x") (.var "y")
    (1 ≤ 3 ∧ simplifyWithin 3 e = simplified) ∧ simplifyWithin 2 simplified = simplified ∧
      maxPasses ≤ 9 ∧ simplifyWithin 9 e = e.simplify := by
  intro e simplified
  obtain ⟨hlimit, hcap, -⟩ := one_pass_suffices e
  have hone : simplifyWithin 1 e = simplified := by decide
  obtain ⟨hthree, hagain⟩ := hlimit 3 (by decide)
  rw [hone] at hthree
  rw [hthree] at hagain
  exact ⟨⟨by decide, hthree⟩, hagain 2, by decide, hcap 9 (by decide)⟩

end Minterm.Expr
