import Mathlib.Data.List.Basic
import Minterm.Expr.Printer
import Minterm.Proofs.LeftNested
import Minterm.Proofs.Lexing

/-! The tokens of a printed expression. `tokens` follows the printer; splitting the text of an expression
    gives these tokens, if its variables are named like identifiers. A chain is written without
    parentheses whichever way it nests, so rebuilding the chains leaves the tokens as they are. -/

namespace Minterm

/-- A name that is read as a variable: an identifier other than the two constants. -/
structure IsVariable (name : String) : Prop where
  ne_empty : name ≠ ""
  chars : ∀ c ∈ name.toList, Token.isIdentChar c = true
  ne_true : name ≠ "true"
  ne_false : name ≠ "false"

instance (name : String) : Decidable (IsVariable name) :=
  decidable_of_iff
    (name ≠ "" ∧ name.toList.all Token.isIdentChar = true ∧ name ≠ "true" ∧ name ≠ "false")
    ⟨fun ⟨hne, hchars, htrue, hfalse⟩ => ⟨hne, List.all_eq_true.mp hchars, htrue, hfalse⟩,
      fun ⟨hne, hchars, htrue, hfalse⟩ => ⟨hne, List.all_eq_true.mpr hchars, htrue, hfalse⟩⟩

namespace Expr
open Token (Written Ends)

/-- All names are read as variables. -/
def Readable (e : Expr) : Prop := ∀ name ∈ e.names, IsVariable name

instance (e : Expr) : Decidable e.Readable := inferInstanceAs (Decidable (∀ name ∈ e.names, IsVariable name))

theorem forall_mem_names_and {P : String → Prop} {a b : Expr} :
    (∀ name ∈ (a.and b).names, P name) ↔ (∀ name ∈ a.names, P name) ∧ ∀ name ∈ b.names, P name := by
  rw [names_and, List.forall_mem_append]

theorem forall_mem_names_or {P : String → Prop} {a b : Expr} :
    (∀ name ∈ (a.or b).names, P name) ↔ (∀ name ∈ a.names, P name) ∧ ∀ name ∈ b.names, P name := by
  rw [names_or, List.forall_mem_append]

/-- All names are spelled as identifiers; those of the two constants are such names, too. -/
def Spellable (e : Expr) : Prop := ∀ name ∈ e.names, (Token.ident name).Spellable

theorem Readable.spellable {e : Expr} (h : e.Readable) : e.Spellable :=
  fun name hn => ⟨(h name hn).ne_empty, (h name hn).chars⟩

/-! ### Tokens -/

def parenthesized (wrap : Bool) (tokens : List Token) : List Token :=
  if wrap then .lparen :: tokens ++ [.rparen] else tokens

/-- The tokens of the text of an expression. -/
def tokens (style : Style) : Expr → List Token
  | .lit b => [.ident (litText b)]
  | .var name => [.ident name]
  | .not x => .bang :: parenthesized (!x.isVar) (x.tokens style)
  | .and a b => parenthesized a.isOr (a.tokens style) ++ .amp :: parenthesized b.isOr (b.tokens style)
  | .or a b =>
    parenthesized (style == .explicit && a.isAnd) (a.tokens style) ++
      .bar :: parenthesized (style == .explicit && b.isAnd) (b.tokens style)

variable {style : Style}

/-! ### Splitting the text -/

theorem ends_nil : Ends [] := by
  intro c hc
  cases hc

theorem ends_of_blank {cs : List Char} : Ends (' ' :: cs) := by
  intro c hc
  obtain rfl := Option.some.inj hc
  decide

theorem ends_of_rparen {cs : List Char} : Ends (')' :: cs) := by
  intro c hc
  obtain rfl := Option.some.inj hc
  decide

/-- Whatever stands before `rest`, followed by it, spells the tokens followed by those of `rest`. -/
def Spells (text : String) (tokens : List Token) : Prop :=
  ∀ ⦃more : List Token⦄ ⦃rest : List Char⦄, Ends rest → Written more rest →
    Written (tokens ++ more) (text.toList ++ rest)

theorem Spells.enclose {text : String} {tokens : List Token} (h : Spells text tokens) (wrap : Bool) :
    Spells (enclose wrap text) (parenthesized wrap tokens) := by
  cases wrap with
  | false => exact h
  | true =>
    intro more rest hends hrest
    have hclose : Written (.rparen :: more) (')' :: rest) := .symbol rfl hrest
    have hopen : Written (.lparen :: (tokens ++ .rparen :: more)) ('(' :: (text.toList ++ ')' :: rest)) :=
      .symbol rfl (h ends_of_rparen hclose)
    simpa [Expr.enclose, parenthesized] using hopen

/-- Two operands with an operator between them. -/
theorem Spells.binary {left right : String} {ls rs : List Token} (hl : Spells left ls) (hr : Spells right rs)
    {c : Char} {token : Token} (hc : Token.ofChar? c = some token) :
    Spells (left ++ (String.ofList [' ', c, ' ']) ++ right) (ls ++ token :: rs) := by
  intro more rest hends hrest
  have hright := Written.symbol hc (Written.blank (c := ' ') rfl (hr hends hrest))
  have hleft := hl ends_of_blank (Written.blank (c := ' ') rfl hright)
  simpa using hleft

theorem spells_ident {name : String} (hne : name ≠ "") (hchars : ∀ c ∈ name.toList, Token.isIdentChar c = true) :
    Spells name [.ident name] :=
  fun _ _ hends hrest => .word hne hchars hends hrest

theorem spells_litText (b : Bool) : Spells (litText b) [.ident (litText b)] := by
  cases b with
  | false => exact spells_ident (by decide) (List.all_eq_true.mp (by decide))
  | true => exact spells_ident (by decide) (List.all_eq_true.mp (by decide))

theorem spells_render {e : Expr} (h : e.Spellable) : Spells (e.render style) (e.tokens style) := by
  induction e with
  | lit b => exact spells_litText b
  | var name =>
    obtain ⟨hne, hchars⟩ := h name (List.mem_singleton_self _)
    exact spells_ident hne hchars
  | not x ih =>
    intro more rest hends hrest
    have hbang : Written (.bang :: (parenthesized (!x.isVar) (x.tokens style) ++ more))
        ('!' :: ((Expr.enclose (!x.isVar) (x.render style)).toList ++ rest)) :=
      .symbol rfl ((ih h).enclose (!x.isVar) hends hrest)
    simpa [render, tokens] using hbang
  | and a b iha ihb =>
    obtain ⟨ha, hb⟩ := forall_mem_names_and.mp h
    exact ((iha ha).enclose a.isOr).binary ((ihb hb).enclose b.isOr) (c := '&') rfl
  | or a b iha ihb =>
    obtain ⟨ha, hb⟩ := forall_mem_names_or.mp h
    exact ((iha ha).enclose _).binary ((ihb hb).enclose _) (c := '|') rfl

theorem Spells.ofText_eq {text : String} {tokens : List Token} (h : Spells text tokens) : Token.ofText text = .ok tokens := by
  have hwritten := h ends_nil .nil
  rw [List.append_nil, List.append_nil] at hwritten
  exact hwritten.scan_eq 0

/-- Splitting the text of an expression gives its tokens. -/
theorem ofText_render_of_spellable {e : Expr} (h : e.Spellable) : Token.ofText (e.render style) = .ok (e.tokens style) :=
  (spells_render h).ofText_eq

theorem ofText_render {e : Expr} (h : e.Readable) : Token.ofText (e.render style) = .ok (e.tokens style) :=
  ofText_render_of_spellable h.spellable

/-! ### Chains -/

/-- An operand of `&`. -/
def factorTokens (style : Style) (e : Expr) : List Token := parenthesized e.isOr (e.tokens style)

/-- An operand of `|`. -/
def termTokens (style : Style) (e : Expr) : List Token :=
  parenthesized (style == .explicit && e.isAnd) (e.tokens style)

theorem factorTokens_of_isOr {e : Expr} (h : e.isOr = false) : factorTokens style e = e.tokens style := by
  rw [factorTokens, h]
  rfl

theorem termTokens_of_isAnd {e : Expr} (h : e.isAnd = false) : termTokens style e = e.tokens style := by
  rw [termTokens, h, Bool.and_false]
  rfl

/-- A chain of `&`, with one more `&` in front, is its operands with a `&` before each. -/
theorem amp_factorTokens (e : Expr) :
    .amp :: factorTokens style e = e.factors.flatMap fun f => .amp :: factorTokens style f := by
  induction e with
  | and a b iha ihb =>
    rw [factors_and, List.flatMap_append, ← iha, ← ihb]
    rfl
  | _ => exact (List.flatMap_singleton ..).symm

theorem bar_termTokens (e : Expr) :
    .bar :: termTokens style e = e.terms.flatMap fun t => .bar :: termTokens style t := by
  induction e with
  | or a b iha ihb =>
    rw [terms_or, List.flatMap_append, ← iha, ← ihb, termTokens_of_isAnd rfl]
    rfl
  | _ => exact (List.flatMap_singleton ..).symm

/-- Rebuilding the chains leaves the tokens as they are. -/
theorem tokens_leftNested (e : Expr) : e.leftNested.tokens style = e.tokens style := by
  induction e using leftNested.induct with
  | case1 b => rw [leftNested]
  | case2 name => rw [leftNested]
  | case3 x ih => rw [leftNested, tokens, tokens, isVar_leftNested, ih]
  | case4 a b ih =>
    have hparts : ∀ f ∈ (a.and b).factors, factorTokens style f.leftNested = factorTokens style f := fun f hf => by
      rw [factorTokens, isOr_leftNested, ih ⟨f, hf⟩, factorTokens]
    have hchain : Token.amp :: factorTokens style (a.and b).leftNested = .amp :: factorTokens style (a.and b) := by
      rw [amp_factorTokens, factors_leftNested, List.flatMap_map, amp_factorTokens]
      exact List.flatMap_congr fun f hf => congrArg _ (hparts f hf)
    have htail := List.tail_eq_of_cons_eq hchain
    rwa [factorTokens_of_isOr (isOr_leftNested _), factorTokens_of_isOr rfl] at htail
  | case5 a b ih =>
    have hparts : ∀ t ∈ (a.or b).terms, termTokens style t.leftNested = termTokens style t := fun t ht => by
      rw [termTokens, isAnd_leftNested, ih ⟨t, ht⟩, termTokens]
    have hchain : Token.bar :: termTokens style (a.or b).leftNested = .bar :: termTokens style (a.or b) := by
      rw [bar_termTokens, terms_leftNested, List.flatMap_map, bar_termTokens]
      exact List.flatMap_congr fun t ht => congrArg _ (hparts t ht)
    have htail := List.tail_eq_of_cons_eq hchain
    rwa [termTokens_of_isAnd (isAnd_leftNested _), termTokens_of_isAnd rfl] at htail

end Expr
end Minterm
