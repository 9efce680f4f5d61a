import Minterm.Proofs.Chains
import Minterm.Proofs.SimplifyRules

/-! Simplification comes to an end and makes no tree larger. The calls of `conj` and `disj` are followed here
    one inside another (`conjWithin`, `disjWithin`), down to a depth that the sizes of the two operands bound.
    The right operand counts twice: where a chain on the right is taken apart, the left operand grows by
    what the right one loses, and by the new node. -/

namespace Minterm.Expr

/-! ### Calls up to a depth -/

/-- `conj` with calls nested at most `depth` deep, and nothing if some call would be deeper. -/
def conjWithin : Nat → Expr → Expr → Option Expr
  | 0, _, _ => none
  | depth + 1, a, b =>
    match a, b with
    | .lit false, _ => some (.lit false)
    | _, .lit false => some (.lit false)
    | .lit true, b => some b
    | a, .lit true => some a
    | a, .and b₁ b₂ => do
      let left ← conjWithin depth a b₁
      conjWithin depth left b₂
    | a, b =>
      if b ∈ a.factors then some a
      else if a.factors.any (·.complements b) then some (.lit false)
      else some (.and a b)

def conjAllWithin (depth : Nat) (factors : List Expr) : Option Expr := factors.foldlM (conjWithin depth) (.lit true)

/-- `disj` with calls nested at most `depth` deep. What is left of a side without other factors is `true`, and
    goes through the rules like any other remainder. -/
def disjWithin : Nat → Expr → Expr → Option Expr
  | 0, _, _ => none
  | depth + 1, a, b =>
    match a, b with
    | .lit true, _ => some (.lit true)
    | _, .lit true => some (.lit true)
    | .lit false, b => some b
    | a, .lit false => some a
    | a, .or b₁ b₂ => do
      let left ← disjWithin depth a b₁
      disjWithin depth left b₂
    | a, b =>
      if a.terms.any (·.complements b) then some (.lit true)
      else if b ∈ a.terms then some a
      else if a.commonFactors b = [] then some (.or a b)
      else do
        let left ← conjAllWithin depth (a.otherFactors b)
        let right ← conjAllWithin depth (b.otherFactors a)
        let rest ← disjWithin depth left right
        let common ← conjAllWithin depth (a.commonFactors b)
        conjWithin depth common rest

/-! ### The depth that is enough -/

theorem conjWithin_eq {depth : Nat} {a b : Expr} (h : b.size ≤ depth) : conjWithin depth a b = some (a.conj b) := by
  induction depth generalizing a b with
  | zero => exact absurd h (Nat.not_le.mpr b.size_pos)
  | succ depth ih =>
    fun_cases conj a b with
    | case5 a b₁ b₂ haf hat =>
      simp only [size] at h
      have hleft : conjWithin depth a b₁ = some (a.conj b₁) := ih (by omega)
      have hwhole : conjWithin depth (a.conj b₁) b₂ = some ((a.conj b₁).conj b₂) := ih (by omega)
      simp [conjWithin, *]
    | _ => simp [conjWithin, *]

theorem conjAllWithin_eq {depth : Nat} {es : List Expr} (h : ∀ e ∈ es, e.size ≤ depth) :
    conjAllWithin depth es = some (conjAll es) := by
  suffices fold : ∀ acc : Expr, es.foldlM (conjWithin depth) acc = some (es.foldl conj acc) from fold (.lit true)
  induction es with
  | nil => exact fun acc => rfl
  | cons e es ih =>
    obtain ⟨he, hes⟩ := List.forall_mem_cons.mp h
    intro acc
    rw [List.foldlM_cons, conjWithin_eq he]
    exact ih hes (acc.conj e)

theorem conjAllWithin_commonFactors {depth : Nat} {a : Expr} (b : Expr) (h : a.size ≤ depth) :
    conjAllWithin depth (a.commonFactors b) = some (conjAll (a.commonFactors b)) :=
  conjAllWithin_eq fun _ hf => Nat.le_trans (size_le_of_mem_factors (mem_commonFactors.mp hf).1) h

theorem conjAllWithin_otherFactors {depth : Nat} {a : Expr} (b : Expr) (h : a.size ≤ depth) :
    conjAllWithin depth (a.otherFactors b) = some (conjAll (a.otherFactors b)) :=
  conjAllWithin_eq fun _ hf => Nat.le_trans (size_le_of_mem_factors (List.mem_filter.mp hf).1) h

theorem size_conjAll_otherFactors_lt {a b : Expr} (hcommon : a.commonFactors b ≠ []) (h : a.otherFactors b ≠ []) :
    (conjAll (a.otherFactors b)).size < a.size := by
  have hsum := chainSize_common_add_other a b
  have htwo := two_le_chainSize hcommon
  have hothers := size_conjAll_lt h
  omega

theorem size_conjAll_otherFactors_le (a b : Expr) : (conjAll (a.otherFactors b)).size ≤ a.size := by
  by_cases h : a.otherFactors b = []
  · rw [h]
    exact a.size_pos
  · have hsum := chainSize_common_add_other a b
    have hothers := size_conjAll_lt h
    omega

theorem disjWithin_lit_true {depth : Nat} (h : 0 < depth) (b : Expr) :
    disjWithin depth (.lit true) b = some ((lit true).disj b) := by
  cases depth with
  | zero => cases h
  | succ depth => rw [disj_of_true (Or.inl rfl), disjWithin]

theorem disjWithin_eq {depth : Nat} {a b : Expr} (h : a.size + 2 * b.size < depth) :
    disjWithin depth a b = some (a.disj b) := by
  fun_induction disjWithin depth a b with
  | case1 => cases h
  | case2 => rw [disj_of_true (Or.inl rfl)]
  | case3 => rw [disj_of_true (Or.inr rfl)]
  | case4 depth b hbt => rw [disj_false_left hbt]
  | case5 depth a hat haf => rw [disj_false_right hat haf]
  | case6 depth a b₁ b₂ hat haf ihl ihw =>
    have hgrows := size_disj_le a b₁
    simp only [size] at h
    rw [disj_or hat haf, ihl (by omega)]
    exact ihw _ (by omega)
  | case7 depth a b hat hbt haf hbf hor hopp =>
    rw [disj_of_isOr_eq_false (not_or.mpr ⟨hat, hbt⟩) haf hbf (isOr_eq_false_of_ne hor), if_pos hopp]
  | case8 depth a b hat hbt haf hbf hor hopp hmem =>
    rw [disj_of_isOr_eq_false (not_or.mpr ⟨hat, hbt⟩) haf hbf (isOr_eq_false_of_ne hor), if_neg hopp, if_pos hmem]
  | case9 depth a b hat hbt haf hbf hor hopp hmem hcommon =>
    rw [disj_of_isOr_eq_false (not_or.mpr ⟨hat, hbt⟩) haf hbf (isOr_eq_false_of_ne hor), if_neg hopp, if_neg hmem,
      if_pos hcommon]
  | case10 depth a b hat hbt haf hbf hor hopp hmem hcommon ih =>
    have hpos := b.size_pos
    have hleft := size_conjAll_otherFactors_le a b
    have hright := size_conjAll_otherFactors_le b a
    have hrest : disjWithin depth (conjAll (a.otherFactors b)) (conjAll (b.otherFactors a)) =
        some ((conjAll (a.otherFactors b)).disj (conjAll (b.otherFactors a))) := by
      by_cases hnone : a.otherFactors b = []
      · rw [hnone, conjAll_nil]
        exact disjWithin_lit_true (by omega) _
      · have hless := size_conjAll_otherFactors_lt hcommon hnone
        exact ih _ _ (by omega)
    have hsize : ((conjAll (a.otherFactors b)).disj (conjAll (b.otherFactors a))).size ≤ depth := by
      have hsum := size_disj_le (conjAll (a.otherFactors b)) (conjAll (b.otherFactors a))
      omega
    rw [disj_of_common (not_or.mpr ⟨hat, hbt⟩) haf hbf (isOr_eq_false_of_ne hor) hopp hmem hcommon,
      conjAllWithin_otherFactors b (by omega), conjAllWithin_otherFactors a (by omega),
      conjAllWithin_commonFactors b (by omega)]
    exact (congrArg (· >>= _) hrest).trans (conjWithin_eq hsize)

/-- A disjunction is found by following its calls. -/
theorem disj_eq_of_disjWithin {depth : Nat} {a b c : Expr} (h : a.size + 2 * b.size < depth)
    (hc : disjWithin depth a b = some c) : a.disj b = c :=
  Option.some.inj ((disjWithin_eq h).symm.trans hc)

/-! ### Size -/

theorem size_simplifyWithin_le (limit : Nat) (e : Expr) : (simplifyWithin limit e).size ≤ e.size := by
  induction limit generalizing e with
  | zero => exact Nat.le_refl _
  | succ limit ih =>
    rw [simplifyWithin]
    split
    · exact e.size_pass_le
    · exact Nat.le_trans (ih e.pass) e.size_pass_le

/-- The calls for two trees come to an end, within a depth that the sizes of the trees bound and with a result at most
    one node larger than both trees; and no number of passes makes a tree larger. -/
theorem simplification_ends_without_growth :
    (∀ (a b : Expr) (depth : Nat), a.size + 2 * b.size < depth →
      (conjWithin depth a b = some (a.conj b) ∧ (a.conj b).size ≤ 1 + a.size + b.size) ∧
        disjWithin depth a b = some (a.disj b) ∧ (a.disj b).size ≤ 1 + a.size + b.size) ∧
      ∀ (e : Expr) (limit : Nat), (simplifyWithin limit e).size ≤ e.size := by
  refine ⟨fun a b depth h => ⟨⟨?_, size_conj_le a b⟩, disjWithin_eq h, size_disj_le a b⟩, fun e limit => ?_⟩
  · exact conjWithin_eq (by omega)
  · exact size_simplifyWithin_le limit e

/-- A shared factor is put in front of what is left of both sides. -/
theorem simplification_ends_without_growth_factored :
    let a : Expr := .and (.var "x") (.var "y")
    let b : Expr := .and (.var "z") (.var "x")
    let factored : Expr := .and (.var "x") (.or (.var "y") (.var "z"))
    a.size + 2 * b.size < 10 ∧ disjWithin 10 a b = some factored ∧ a.disj b = factored ∧
      factored.size ≤ 1 + a.size + b.size := by
  intro a b factored
  obtain ⟨-, hends, hsize⟩ := simplification_ends_without_growth.1 a b 10 (by decide)
  have hdisj : a.disj b = factored := disj_eq_of_disjWithin (show a.size + 2 * b.size < 10 by decide) (by decide)
  rw [hdisj] at hends hsize
  exact ⟨by decide, hends, hdisj, hsize⟩

end Minterm.Expr
