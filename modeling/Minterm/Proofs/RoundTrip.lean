import Minterm.Proofs.Reading

/-! Printing and reading. The text of an expression, in either style, is read as the expression with its
    chains nested to the left, under every limit that exceeds the number of tokens. -/

namespace Minterm.Expr

/-- A limit that exceeds the number of tokens lets every tree through. -/
theorem ofTokens_tokens_leftNested {style : Style} {e : Expr} (h : e.Readable) {limit : Nat}
    (hlimit : (e.tokens style).length + 1 ≤ limit) : ofTokens limit (e.tokens style) = .ok e.leftNested := by
  have hdeep : e.leftNested.nesting style ≤ limit := by
    have := e.leftNested.nesting_le_length style
    rw [tokens_leftNested] at this
    omega
  have hnames : e.leftNested.Readable := fun name hn => h name (names_leftNested e ▸ hn)
  rw [← tokens_leftNested, ofTokens_tokens (by omega) (leftNested_leftNested e) hnames, if_pos hdeep]

/-- Reading the text of an expression rebuilds its chains: the result is the expression itself if its
    chains nest to the left already, and it has the same value or fault under every assignment. -/
theorem reading_text_rebuilds_chains (style : Style) (e : Expr) (h : e.Readable) :
    ∃ tokens, Token.ofText (e.render style) = .ok tokens ∧
      (∀ limit, tokens.length + 1 ≤ limit → ofTokens limit tokens = .ok e.leftNested) ∧
      (e.LeftNested → e.leftNested = e) ∧
      ∀ value?, e.leftNested.eval value? = e.eval value? :=
  ⟨e.tokens style, ofText_render h, fun _ => ofTokens_tokens_leftNested h, LeftNested.leftNested_eq,
    fun _ => eval_leftNested e⟩

/-- Chains that nest to the right, below a negation and at the top. -/
theorem reading_text_rebuilds_chains_nested :
    let e : Expr := .and (.var "a") (.and (.not (.or (.var "b") (.or (.var "c") (.lit true)))) (.var "d"))
    e.Readable ∧ ∃ tokens, Token.ofText "a & !(b | c | true) & d" = .ok tokens ∧
      ∀ limit, tokens.length + 1 ≤ limit → ofTokens limit tokens = .ok e.leftNested := by
  intro e
  have hreadable : e.Readable := by
    intro name hn
    simp only [e, names_and, names_or, names_not, names_var, names_lit, List.mem_append, List.mem_singleton,
      List.not_mem_nil, or_false] at hn
    rcases hn with rfl | (rfl | rfl) | rfl
    all_goals exact ⟨by decide, List.all_eq_true.mp (by decide), by decide, by decide⟩
  obtain ⟨tokens, htokens, hread, -, -⟩ := reading_text_rebuilds_chains .canonical e hreadable
  exact ⟨hreadable, tokens, htokens, hread⟩

end Minterm.Expr
