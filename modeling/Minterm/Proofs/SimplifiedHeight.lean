import Mathlib.Algebra.Order.BigOperators.Group.List
import Mathlib.Algebra.Order.Ring.Nat
import Minterm.Proofs.CanonicalText
import Minterm.Proofs.Grammar

/-! The height of simplified trees. The reader bounds the height of the trees it makes, and simplification
    does not keep to the bound: it nests every chain to the left, so that two chains side by side make one
    as high as both together. What no rule makes larger is the weight of a tree, the number of its
    variables and negations. A simplified tree is at most as high as it is heavy, and the weight of an
    input is counted on its tokens; so inputs of few variables and negations stay within the bound. -/

namespace Minterm

/-- A variable or a negation. -/
def Token.weighs : Token → Bool
  | .bang => true
  | .ident name => name != "true" && name != "false"
  | _ => false

namespace Expr

/-- The number of variables, with repetitions, and negations. -/
def weight : Expr → Nat
  | .lit _ => 0
  | .var _ => 1
  | .not x => x.weight + 1
  | .and a b | .or a b => a.weight + b.weight

/-- The weight of a chain over a list. -/
def chainWeight (es : List Expr) : Nat := (es.map weight).sum

theorem chainWeight_cons (e : Expr) (es : List Expr) : chainWeight (e :: es) = e.weight + chainWeight es :=
  List.sum_cons

theorem chainWeight_append (es fs : List Expr) : chainWeight (es ++ fs) = chainWeight es + chainWeight fs := by
  rw [chainWeight, List.map_append, List.sum_append]
  rfl

theorem chainWeight_factors (e : Expr) : chainWeight e.factors = e.weight := by
  induction e with
  | and a b iha ihb => rw [factors_and, chainWeight_append, iha, ihb, weight]
  | _ => rfl

/-- The factors that two sides share, each once, and the others of one side weigh no more than that side. -/
theorem chainWeight_split (a b : Expr) :
    chainWeight (a.commonFactors b) + chainWeight (a.otherFactors b) ≤ a.weight := by
  have hsublist : (a.commonFactors b ++ a.otherFactors b).Sublist
      (a.factors.filter (· ∈ b.factors) ++ a.factors.filter (· ∉ b.factors)) :=
    (sublist_eraseDups _).append_right _
  have hperm : (a.factors.filter (· ∈ b.factors) ++ a.factors.filter (· ∉ b.factors)).Perm a.factors := by
    simpa only [decide_not] using List.filter_append_perm (fun f => decide (f ∈ b.factors)) a.factors
  calc chainWeight (a.commonFactors b) + chainWeight (a.otherFactors b)
      = chainWeight (a.commonFactors b ++ a.otherFactors b) := (chainWeight_append _ _).symm
    _ ≤ chainWeight (a.factors.filter (· ∈ b.factors) ++ a.factors.filter (· ∉ b.factors)) :=
        (hsublist.map weight).sum_le_sum fun _ _ => Nat.zero_le _
    _ = chainWeight a.factors := (hperm.map weight).sum_eq
    _ = a.weight := chainWeight_factors a

/-! ### No rule makes a tree heavier -/

theorem weight_negate_le (x : Expr) : x.negate.weight ≤ x.weight + 1 := by
  cases x <;> simp only [negate, weight] <;> omega

theorem Conjoins.weight_le {a b c : Expr} (h : Conjoins a b c) : c.weight ≤ a.weight + b.weight := by
  induction h with
  | falseLeft | falseRight | opposed => exact Nat.zero_le _
  | trueLeft b => exact Nat.le_add_left _ _
  | trueRight a | repeated => exact Nat.le_add_right _ _
  | nested _ _ ihl ihw =>
    simp only [weight]
    omega
  | joined => exact Nat.le_refl _

theorem weight_foldl_conj_le (acc : Expr) (es : List Expr) : (es.foldl conj acc).weight ≤ acc.weight + chainWeight es := by
  induction es generalizing acc with
  | nil => exact Nat.le_refl _
  | cons e es ih =>
    have hrest := ih (acc.conj e)
    have hfirst := (conjoins_conj acc e).weight_le
    rw [List.foldl_cons, chainWeight_cons]
    omega

theorem weight_conjAll_le (es : List Expr) : (conjAll es).weight ≤ chainWeight es := by
  have hfold := weight_foldl_conj_le (.lit true) es
  rwa [weight, Nat.zero_add] at hfold

theorem Disjoins.weight_le {a b c : Expr} (h : Disjoins a b c) : c.weight ≤ a.weight + b.weight := by
  induction h with
  | trueLeft | trueRight | opposed => exact Nat.zero_le _
  | falseLeft b => exact Nat.le_add_left _ _
  | falseRight a | repeated => exact Nat.le_add_right _ _
  | nested _ _ ihl ihw =>
    simp only [weight]
    omega
  | joined => exact Nat.le_refl _
  | @absorbed a b =>
    have hsplit := chainWeight_split a b
    have hcommon := weight_conjAll_le (a.commonFactors b)
    omega
  | @factored a b rest _ _ ih =>
    have hleft := chainWeight_split a b
    have hright := chainWeight_split b a
    have hcommon := weight_conjAll_le (a.commonFactors b)
    have hothers := weight_conjAll_le (a.otherFactors b)
    have hothers' := weight_conjAll_le (b.otherFactors a)
    have hconj := (conjoins_conj (conjAll (a.commonFactors b)) rest).weight_le
    omega

theorem weight_pass_le (e : Expr) : e.pass.weight ≤ e.weight := by
  induction e with
  | lit b => exact Nat.le_refl _
  | var name => exact Nat.le_refl _
  | not x ih =>
    have := weight_negate_le x.pass
    simp only [pass, weight]
    omega
  | and a b iha ihb =>
    have := (conjoins_conj a.pass b.pass).weight_le
    simp only [pass, weight]
    omega
  | or a b iha ihb =>
    have := (disjoins_disj a.pass b.pass).weight_le
    simp only [pass, weight]
    omega

/-! ### Height and weight -/

theorem height_pos (e : Expr) : 1 ≤ e.height := by
  cases e <;> simp only [height] <;> omega

theorem Reduced.height_le_weight {e : Expr} (h : Reduced e) : e.height ≤ e.weight := by
  induction h with
  | var name => exact Nat.le_refl _
  | not _ _ ih => exact Nat.succ_le_succ ih
  | @and a b _ _ _ _ _ iha ihb | @or a b _ _ _ _ _ _ iha ihb =>
    have ha := a.height_pos
    have hb := b.height_pos
    simp only [height, weight]
    omega

theorem Simplified.height_le {e : Expr} (h : Simplified e) : e.height ≤ max 1 e.weight := by
  rcases h with h | h
  · cases e with
    | lit b => exact Nat.le_max_left _ _
    | _ => cases h
  · exact Nat.le_trans h.height_le_weight (Nat.le_max_right _ _)

theorem height_simplify_le (e : Expr) : e.simplify.height ≤ max 1 e.weight := by
  have hheight := (simplified_simplify e).height_le
  have hweight := e.weight_pass_le
  rw [simplify_eq_pass] at hheight ⊢
  omega

/-- The weight of a tree is counted on its tokens. -/
theorem weight_of_derives {phrase : Parser.Phrase} {ts : List Token} {e : Expr} (h : Parser.Derives phrase ts e) :
    e.weight = ts.countP Token.weighs := by
  induction h with
  | product _ ih | unary _ ih | primary _ ih => exact ih
  | or _ _ iha ihb | and _ _ iha ihb =>
    rw [weight, iha, ihb, List.countP_append, List.countP_cons_of_neg (by decide)]
  | not _ ih => rw [weight, ih, List.countP_cons_of_pos rfl]
  | parenthesized _ ih => simp [ih, Token.weighs]
  | litTrue | litFalse => rfl
  | var htrue hfalse => simp [weight, Token.weighs, htrue, hfalse]

/-- A simplified tree is at most as high as the input has variables and negations; so the height stays within
    the limit of the reader if these are not more than the limit. -/
theorem simplified_height_bounded {text : String} {e : Expr} (h : ofText text = .ok e) :
    ∃ tokens, Token.ofText text = .ok tokens ∧ e.simplify.height ≤ max 1 (tokens.countP Token.weighs) ∧
      (tokens.countP Token.weighs ≤ maxDepth → e.simplify.height ≤ maxDepth) := by
  obtain ⟨tokens, htokens, hread⟩ := bind_eq_ok h
  have hheight := e.height_simplify_le
  rw [weight_of_derives (Parser.derives_of_ofTokens hread)] at hheight
  exact ⟨tokens, htokens, hheight, fun hle => Nat.le_trans hheight (Nat.max_le.mpr ⟨by decide, hle⟩)⟩

/-- A chain on the right of another one, which the two negations keep in parentheses until they are removed. -/
theorem simplified_height_bounded_joined :
    let e : Expr := .and (.var "x") (.not (.not (.and (.var "y") (.var "z"))))
    ofText "x & !(!(y & z))" = .ok e ∧ ∃ tokens, Token.ofText "x & !(!(y & z))" = .ok tokens ∧
      tokens.countP Token.weighs ≤ maxDepth ∧ e.simplify.height ≤ maxDepth := by
  intro e
  have hread : ofText "x & !(!(y & z))" = .ok e := ofText_text (e := e) (by decide) (by decide)
  obtain ⟨tokens, htokens, -, hbounded⟩ := simplified_height_bounded hread
  have hspelled : Token.ofText "x & !(!(y & z))" = .ok (e.tokens .canonical) := ofText_render (e := e) (by decide)
  obtain rfl := Except.ok.inj (hspelled.symm.trans htokens)
  exact ⟨hread, _, htokens, by decide, hbounded (by decide)⟩

/-! ### Trees that grow past the limit -/

open Query (numbered longChain)

/-- `2 ^ depth` different variables from number `start` on, joined two by two. Two negations keep the right half of
    each pair in parentheses. -/
def paired (start : Nat) : Nat → Expr
  | 0 => .var (numbered start)
  | depth + 1 => .and (paired start depth) (.not (.not (paired (start + 2 ^ depth) depth)))

theorem negate_negate {x : Expr} (h : Reduced x) (hnot : x.isNot = false) : x.negate.negate = x := by
  rw [negate_of_isNot_eq_false h.isLit_eq_false hnot]
  rfl

theorem isNot_longChain (start count : Nat) : (longChain start count).isNot = false := by
  cases count with
  | zero => rfl
  | succ count => rw [Query.longChain_succ]; rfl

/-- All pairs are joined to one chain. -/
theorem pass_paired (start depth : Nat) : (paired start depth).pass = longChain start (2 ^ depth - 1) := by
  induction depth generalizing start with
  | zero => rfl
  | succ depth ih =>
    have hpos := Nat.two_pow_pos depth
    have hright := ih (start + 2 ^ depth)
    rw [paired, pass, pass, pass, ih, hright, negate_negate (Query.reduced_longChain _ _) (isNot_longChain _ _)]
    have hjoin := Query.conj_longChain start (2 ^ depth - 1) (2 ^ depth - 1)
    rw [show start + (2 ^ depth - 1) + 1 = start + 2 ^ depth by omega] at hjoin
    rw [hjoin, Nat.pow_succ]
    congr 1
    omega

theorem leftNested_paired (start depth : Nat) : (paired start depth).LeftNested := by
  induction depth generalizing start with
  | zero => exact trivial
  | succ depth ih => exact ⟨ih start, ih (start + 2 ^ depth), rfl⟩

theorem readable_paired (start depth : Nat) : (paired start depth).Readable := by
  induction depth generalizing start with
  | zero => exact Query.readable_longChain start 0
  | succ depth ih =>
    intro name hn
    rw [paired, names_and, List.mem_append, names_not, names_not] at hn
    exact hn.elim (ih start name) (ih _ name)

theorem nesting_paired_le (start depth : Nat) : (paired start depth).nesting .canonical ≤ 4 * depth + 1 := by
  induction depth generalizing start with
  | zero => exact Nat.le_refl _
  | succ depth ih =>
    have hleft := ih start
    have hright := ih (start + 2 ^ depth)
    have hheight := (paired start depth).height_le_nesting .canonical
    have hheight' := (paired (start + 2 ^ depth) depth).height_le_nesting .canonical
    have hor := (paired start depth).isOr.toNat_le
    have hinner := (!(paired (start + 2 ^ depth) depth).isVar).toNat_le
    have houter := (!(paired (start + 2 ^ depth) depth).not.isVar).toNat_le
    have hnot : (paired (start + 2 ^ depth) depth).not.not.isOr.toNat = 0 := rfl
    simp only [paired, nesting, height]
    omega

/-- Inputs within the limit that simplification makes exponentially higher than they are. -/
theorem height_simplify_paired {depth : Nat} (h : 4 * depth + 1 ≤ maxDepth) :
    ofText (paired 0 depth).text = .ok (paired 0 depth) ∧ (paired 0 depth).height ≤ maxDepth ∧
      (paired 0 depth).simplify.height = 2 ^ depth := by
  have hnesting := Nat.le_trans (nesting_paired_le 0 depth) h
  refine ⟨?_, Nat.le_trans (height_le_nesting .canonical _) hnesting, ?_⟩
  · rw [ofText_text (leftNested_paired 0 depth) (readable_paired 0 depth), if_pos hnesting]
  · have hpos := Nat.two_pow_pos depth
    rw [simplify_eq_pass, pass_paired, Query.height_longChain]
    omega

/-- Two chains of height 257 side by side make one of height 514, and a tree of height 31 over 1024 variables makes
    one of height 1024. -/
theorem simplified_height_exceeds :
    (ofText Query.chainPairText = .ok Query.chainPair ∧ Query.chainPair.height = 258 ∧
        Query.chainPair.simplify.height = 514) ∧
      (ofText (paired 0 10).text = .ok (paired 0 10) ∧ (paired 0 10).height ≤ maxDepth ∧
        (paired 0 10).simplify.height = 1024) ∧
      258 ≤ maxDepth ∧ maxDepth < 514 ∧ maxDepth < 1024 := by
  obtain ⟨hread, hheight, hsimplified⟩ := height_simplify_paired (show 4 * 10 + 1 ≤ maxDepth by decide)
  refine ⟨⟨Query.ofText_chainPair, ?_, ?_⟩, ⟨hread, hheight, hsimplified⟩, by decide⟩
  · rw [Query.chainPair, height, Query.height_longChain, Query.height_longChain]
    rfl
  · rw [Query.simplify_chainPair, Query.height_longChain]

end Expr
end Minterm
