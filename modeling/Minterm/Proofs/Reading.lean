import Minterm.Proofs.Phrases
import Minterm.Proofs.Spelling

/-! Reading the tokens of a printed expression. For a tree that nests to the left the reader gives back
    the tree, and refuses it if and only if it is nested deeper than the limit (`nesting`). Only variables
    that are named like a constant come back as that constant (`reread`). -/

namespace Minterm

namespace Expr

/-- How deep the text of an expression is nested: the height of its tree, where the parentheses around
    a part count like negations. -/
def nesting (style : Style) : Expr → Nat
  | .lit _ | .var _ => 1
  | .not x => x.nesting style + (!x.isVar).toNat + 1
  | .and a b =>
    max (max (a.nesting style + a.isOr.toNat) (b.nesting style + b.isOr.toNat)) (max a.height b.height + 1)
  | .or a b =>
    max
      (max (a.nesting style + (style == .explicit && a.isAnd).toNat)
        (b.nesting style + (style == .explicit && b.isAnd).toNat))
      (max a.height b.height + 1)

theorem nesting_pos (style : Style) (e : Expr) : 1 ≤ e.nesting style := by
  cases e <;> simp only [nesting] <;> omega

/-- The tree as which the text of an expression is read: the words for constants are no variables. -/
def reread : Expr → Expr
  | .lit b => .lit b
  | .var name => Parser.leaf name
  | .not x => .not x.reread
  | .and a b => .and a.reread b.reread
  | .or a b => .or a.reread b.reread

theorem height_leaf (name : String) : (Parser.leaf name).height = 1 := by
  unfold Parser.leaf
  split
  · rfl
  · split <;> rfl

theorem leaf_eq_var_iff {name : String} : Parser.leaf name = .var name ↔ name ≠ "true" ∧ name ≠ "false" := by
  unfold Parser.leaf
  split
  · rename_i htrue
    exact iff_of_false nofun fun h => h.1 htrue
  · rename_i htrue
    split
    · rename_i hfalse
      exact iff_of_false nofun fun h => h.2 hfalse
    · rename_i hfalse
      exact iff_of_true rfl ⟨htrue, hfalse⟩

/-- A tree is read as itself exactly if no variable is named like a constant. -/
theorem reread_eq_iff {e : Expr} : e.reread = e ↔ ∀ name ∈ e.names, name ≠ "true" ∧ name ≠ "false" := by
  induction e with
  | lit b => exact iff_of_true rfl nofun
  | var name =>
    rw [reread, leaf_eq_var_iff, names_var, List.forall_mem_singleton]
  | not x ih => rw [reread, not.injEq, ih, names_not]
  | and a b iha ihb => rw [reread, and.injEq, iha, ihb, forall_mem_names_and]
  | or a b iha ihb => rw [reread, or.injEq, iha, ihb, forall_mem_names_or]

theorem Readable.reread_eq {e : Expr} (h : e.Readable) : e.reread = e :=
  reread_eq_iff.mpr fun name hn => ⟨(h name hn).ne_true, (h name hn).ne_false⟩

end Expr

namespace Parser
open Minterm.Expr (parenthesized)

variable {limit : Nat} {style : Style}

/-! ### Operands with and without parentheses -/

section Parenthesized
variable {tokens : List Token} {n : Nat} {e : Expr}

theorem readsUnit_parenthesized (wrap : Bool) (hpos : 1 ≤ n) (hsum : ReadsSum limit tokens n e)
    (hunit : wrap = false → ReadsUnit limit tokens n e) : ReadsUnit limit (parenthesized wrap tokens) (n + wrap.toNat) e := by
  cases wrap with
  | false => exact hunit rfl
  | true => exact hsum.parenthesized hpos

/-- The first part of a product may be a chain of `&` itself. -/
theorem readsProduct_parenthesized (wrap : Bool) (hpos : 1 ≤ n) (hsum : ReadsSum limit tokens n e)
    (hproduct : wrap = false → ReadsProduct limit tokens n e) :
    ReadsProduct limit (parenthesized wrap tokens) (n + wrap.toNat) e := by
  cases wrap with
  | false => exact hproduct rfl
  | true => exact (hsum.parenthesized hpos).product

/-- The first part of a sum may be a chain of `|` itself. -/
theorem readsSum_parenthesized (wrap : Bool) (hpos : 1 ≤ n) (hsum : ReadsSum limit tokens n e) :
    ReadsSum limit (parenthesized wrap tokens) (n + wrap.toNat) e := by
  cases wrap with
  | false => exact hsum
  | true => exact (hsum.parenthesized hpos).product.sum

end Parenthesized

/-! ### Whole trees -/

/-- The text of a tree is read as another tree of the same height, wherever it may stand. -/
structure Reads (limit : Nat) (style : Style) (e r : Expr) : Prop where
  height : r.height = e.height
  sum : ReadsSum limit (e.tokens style) (e.nesting style) r
  product : e.isOr = false → ReadsProduct limit (e.tokens style) (e.nesting style) r
  unit : e.isOr = false → e.isAnd = false → ReadsUnit limit (e.tokens style) (e.nesting style) r

theorem ReadsUnit.reads {e r : Expr} (h : ReadsUnit limit (e.tokens style) (e.nesting style) r)
    (hheight : r.height = e.height) : Reads limit style e r :=
  ⟨hheight, h.product.sum, fun _ => h.product, fun _ _ => h⟩

theorem Reads.not {x r : Expr} (h : Reads limit style x r) : Reads limit style (.not x) (.not r) := by
  have hpos := x.nesting_pos style
  have hoperand : ReadsUnit limit (parenthesized (!x.isVar) (x.tokens style)) (x.nesting style + (!x.isVar).toNat) r := by
    refine readsUnit_parenthesized _ hpos h.sum fun hvar => ?_
    cases x with
    | var name => exact h.unit rfl rfl
    | _ => cases hvar
  exact ReadsUnit.reads (hoperand.not (by omega)) (congrArg (· + 1) h.height)

theorem Reads.and {a b r s : Expr} (ha : Reads limit style a r) (hb : Reads limit style b s) (hand : b.isAnd = false) :
    Reads limit style (.and a b) (.and r s) := by
  have hleft := readsProduct_parenthesized a.isOr (a.nesting_pos style) ha.sum ha.product
  have hright := readsUnit_parenthesized b.isOr (b.nesting_pos style) hb.sum fun hor => hb.unit hor hand
  have hproduct := hleft.and hright
  rw [ha.height, hb.height] at hproduct
  exact ⟨by rw [Expr.height, ha.height, hb.height, Expr.height], hproduct.sum, fun _ => hproduct, fun _ h => (nomatch h)⟩

theorem Reads.or {a b r s : Expr} (ha : Reads limit style a r) (hb : Reads limit style b s) (hor : b.isOr = false) :
    Reads limit style (.or a b) (.or r s) := by
  have hleft := readsSum_parenthesized (style == .explicit && a.isAnd) (a.nesting_pos style) ha.sum
  have hright := readsProduct_parenthesized (style == .explicit && b.isAnd) (b.nesting_pos style) hb.sum
    fun _ => hb.product hor
  have hsum := hleft.or hright
  rw [ha.height, hb.height] at hsum
  exact ⟨by rw [Expr.height, ha.height, hb.height, Expr.height], hsum, fun h => (nomatch h), fun h => (nomatch h)⟩

theorem leaf_litText (b : Bool) : leaf (Expr.litText b) = .lit b := by
  cases b <;> rfl

theorem reads (style : Style) {e : Expr} (h : e.LeftNested) : Reads limit style e e.reread := by
  induction e with
  | lit b => exact ReadsUnit.reads (readsUnit_leaf (leaf_litText b) rfl) rfl
  | var name =>
    have hheight := Expr.height_leaf name
    exact ReadsUnit.reads (readsUnit_leaf rfl hheight) hheight
  | not x ih => exact (ih h).not
  | and a b iha ihb =>
    obtain ⟨ha, hb, hand⟩ := h
    exact (iha ha).and (ihb hb) hand
  | or a b iha ihb =>
    obtain ⟨ha, hb, hor⟩ := h
    exact (iha ha).or (ihb hb) hor

end Parser

namespace Expr

variable {limit : Nat} {style : Style}

/-- The tokens of a tree that nests to the left are read as far as the limit allows. -/
theorem ofTokens_tokens_reread {e : Expr} (hlimit : 0 < limit) (h : e.LeftNested) :
    ofTokens limit (e.tokens style) = if e.nesting style ≤ limit then .ok e.reread else .error (.tooDeep limit) :=
  (Parser.reads style h).sum.ofTokens_eq hlimit

theorem ofTokens_tokens {e : Expr} (hlimit : 0 < limit) (h : e.LeftNested) (hnames : e.Readable) :
    ofTokens limit (e.tokens style) = if e.nesting style ≤ limit then .ok e else .error (.tooDeep limit) := by
  rw [ofTokens_tokens_reread hlimit h, hnames.reread_eq]

theorem height_le_nesting (style : Style) (e : Expr) : e.height ≤ e.nesting style := by
  induction e with
  | lit b => exact Nat.le_refl _
  | var name => exact Nat.le_refl _
  | not x ih => simp only [height, nesting]; omega
  | and a b | or a b => exact Nat.le_max_right _ _

theorem length_parenthesized (wrap : Bool) (tokens : List Token) :
    (parenthesized wrap tokens).length = tokens.length + 2 * wrap.toNat := by
  cases wrap <;> simp [parenthesized]

/-- Every level of nesting takes a token. -/
theorem nesting_le_length (style : Style) (e : Expr) : e.nesting style ≤ (e.tokens style).length := by
  induction e with
  | lit b => exact Nat.le_refl _
  | var name => exact Nat.le_refl _
  | not x ih => simp only [nesting, tokens, List.length_cons, length_parenthesized]; omega
  | and a b iha ihb | or a b iha ihb =>
    have ha := a.height_le_nesting style
    have hb := b.height_le_nesting style
    simp only [nesting, tokens, List.length_cons, List.length_append, length_parenthesized]
    omega

end Expr
end Minterm
