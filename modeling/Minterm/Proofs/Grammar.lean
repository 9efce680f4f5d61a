import Minterm.Proofs.Lists
import Minterm.Proofs.Phrases

/-! The grammar of expressions, and the proof that the reader accepts exactly its sentences.

    A run keeps, in its state, a derivation of each operand that it holds: the tokens read so far are
    these operands, each with the connective, the parenthesis or the negations that follow or precede
    it (`State.After`). So whatever is read in full has been derived. Conversely the rules of the
    grammar are the ways to build phrases, and the reader reads each phrase whose nesting the limit
    leaves room for; no phrase is nested deeper than it has tokens. -/

namespace Minterm
namespace Parser

/-! ### The grammar -/

/-- The nonterminals, the loosest first. -/
inductive Phrase where
  | sum
  | product
  | unary
  | primary
  deriving DecidableEq, Repr

/-- The tokens of a phrase, with the tree that they stand for:

        sum     := product ('|' product)*
        product := unary ('&' unary)*
        unary   := '!' unary | primary
        primary := '(' sum ')' | 'true' | 'false' | identifier

    Chains grow to the left, and the two words for constants are no identifiers. -/
inductive Derives : Phrase → List Token → Expr → Prop
  | product {ts : List Token} {e : Expr} (h : Derives .product ts e) : Derives .sum ts e
  | or {ts us : List Token} {a b : Expr} (ha : Derives .sum ts a) (hb : Derives .product us b) :
    Derives .sum (ts ++ .bar :: us) (.or a b)
  | unary {ts : List Token} {e : Expr} (h : Derives .unary ts e) : Derives .product ts e
  | and {ts us : List Token} {a b : Expr} (ha : Derives .product ts a) (hb : Derives .unary us b) :
    Derives .product (ts ++ .amp :: us) (.and a b)
  | not {ts : List Token} {x : Expr} (h : Derives .unary ts x) : Derives .unary (.bang :: ts) (.not x)
  | primary {ts : List Token} {e : Expr} (h : Derives .primary ts e) : Derives .unary ts e
  | parenthesized {ts : List Token} {e : Expr} (h : Derives .sum ts e) : Derives .primary (.lparen :: ts ++ [.rparen]) e
  | litTrue : Derives .primary [.ident "true"] (.lit true)
  | litFalse : Derives .primary [.ident "false"] (.lit false)
  | var {name : String} (htrue : name ≠ "true") (hfalse : name ≠ "false") : Derives .primary [.ident name] (.var name)

variable {limit : Nat} {ts us : List Token} {e : Expr}

/-! ### What is read is derived -/

/-- The tokens of an operand that waits for its right neighbour: the connective is the last one. -/
def Waits (phrase : Phrase) (connective : Token) (ts : List Token) : Option Operand → Prop
  | none => ts = []
  | some x => ∃ us, ts = us ++ [connective] ∧ Derives phrase us x.expr

/-- The tokens read at a level up to the operand that is due. -/
def Level.After (level : Level) (ts : List Token) : Prop :=
  ∃ us vs, Waits .sum .bar us level.sum ∧ Waits .product .amp vs level.product ∧
    ts = us ++ vs ++ List.replicate level.bangs .bang

/-- The tokens read at the levels around one, each with the parenthesis that opens the next level. -/
def Enclosed : List Level → List Token → Prop
  | [], ts => ts = []
  | level :: outer, ts => ∃ us vs, Enclosed outer us ∧ level.After vs ∧ ts = us ++ vs ++ [.lparen]

/-- The tokens after which the reader is in a state. -/
def State.After : State → List Token → Prop
  | .due level outer, ts => ∃ us vs, Enclosed outer us ∧ level.After vs ∧ ts = us ++ vs
  | .read _ sum product outer, ts =>
    ∃ us vs ws, Enclosed outer us ∧ Waits .sum .bar vs sum ∧ Derives .product ws product.expr ∧ ts = us ++ vs ++ ws

theorem after_new (depth : Nat) : Level.After ⟨depth, none, none, 0⟩ [] := ⟨[], [], rfl, rfl, rfl⟩

theorem after_start : start.After [] := ⟨[], [], rfl, after_new 0, rfl⟩

theorem derives_leaf (name : String) : Derives .unary [.ident name] (leaf name) := by
  unfold leaf
  split
  · rename_i htrue
    exact .primary (htrue ▸ .litTrue)
  · rename_i htrue
    split
    · rename_i hfalse
      exact .primary (hfalse ▸ .litFalse)
    · rename_i hfalse
      exact .primary (.var htrue hfalse)

theorem derives_negate {x : Operand} (h : Derives .unary ts x.expr) (n : Nat) :
    Derives .unary (List.replicate n .bang ++ ts) (x.negate n).expr := by
  induction n generalizing x ts with
  | zero => exact h
  | succ n ih =>
    rw [List.replicate_succ', List.append_assoc]
    exact ih (.not h)

/-- The operand that waits and the one on its right make a chain. -/
theorem derives_waiting {phrase inner : Phrase} {connective : Token} {connect : Expr → Expr → Expr}
    (hsingle : ∀ {ts e}, Derives inner ts e → Derives phrase ts e)
    (hchain : ∀ {ts us a b}, Derives phrase ts a → Derives inner us b → Derives phrase (ts ++ connective :: us) (connect a b))
    {left : Option Operand} {b : Expr} (hleft : Waits phrase connective ts left) (hright : Derives inner us b) :
    Derives phrase (ts ++ us) (left.elim b fun x => connect x.expr b) := by
  cases left with
  | none =>
    obtain rfl := hleft
    exact hsingle hright
  | some left =>
    obtain ⟨vs, rfl, hvs⟩ := hleft
    rw [List.append_assoc]
    exact hchain hvs hright

theorem derives_join {phrase inner : Phrase} {connective : Token} {connect : Expr → Expr → Expr}
    (hsingle : ∀ {ts e}, Derives inner ts e → Derives phrase ts e)
    (hchain : ∀ {ts us a b}, Derives phrase ts a → Derives inner us b → Derives phrase (ts ++ connective :: us) (connect a b))
    {depth : Nat} {left : Option Operand} {right x : Operand} (hleft : Waits phrase connective ts left)
    (hright : Derives inner us right.expr) (h : join limit depth connect left right = .ok x) :
    Derives phrase (ts ++ us) x.expr := by
  have hderives := derives_waiting hsingle hchain hleft hright
  cases left with
  | none =>
    cases h
    exact hderives
  | some left =>
    rw [join_some] at h
    cases eq_ok_of_guardHeight h
    exact hderives

theorem after_accept {level : Level} {outer : List Level} {x : Operand} {state : State} {vs : List Token}
    (houter : Enclosed outer us) (hlevel : level.After vs) (hx : Derives .unary ts x.expr)
    (h : level.accept limit outer x = .ok state) : state.After (us ++ vs ++ ts) := by
  obtain ⟨product, hjoin, hstate⟩ := bind_eq_ok h
  cases hstate
  obtain ⟨sums, products, hsum, hproduct, rfl⟩ := hlevel
  have hproduct := derives_join .unary .and hproduct (derives_negate hx level.bangs) hjoin
  exact ⟨us, sums, _, houter, hsum, hproduct, by simp only [List.append_assoc]⟩

theorem after_step {state next : State} {token : Token} (hstate : state.After ts) (h : step limit state token = .ok next) :
    next.After (ts ++ [token]) := by
  cases state with
  | due level outer =>
    obtain ⟨us, vs, houter, hlevel, rfl⟩ := hstate
    cases token with
    | bang =>
      cases eq_ok_of_guardHeight h
      obtain ⟨sums, products, hsum, hproduct, rfl⟩ := hlevel
      refine ⟨us, _, houter, ⟨sums, products, hsum, hproduct, rfl⟩, ?_⟩
      simp only [List.replicate_succ', List.append_assoc]
    | lparen =>
      cases eq_ok_of_guardHeight h
      exact ⟨_, [], ⟨us, vs, houter, hlevel, rfl⟩, after_new _, (List.append_nil _).symm⟩
    | ident name => exact after_accept houter hlevel (derives_leaf name) h
    | amp | bar | rparen => cases h
  | read depth sum product outer =>
    obtain ⟨us, vs, ws, houter, hsum, hproduct, rfl⟩ := hstate
    cases token with
    | amp =>
      cases h
      exact ⟨us, _, houter, ⟨vs, _, hsum, ⟨ws, rfl, hproduct⟩, rfl⟩, by simp⟩
    | bar =>
      obtain ⟨x, hx, hnext⟩ := bind_eq_ok h
      cases hnext
      have hsum := derives_join .product .or hsum hproduct hx
      exact ⟨us, _, houter, ⟨_, [], ⟨_, rfl, hsum⟩, rfl, rfl⟩, by simp⟩
    | rparen =>
      obtain ⟨x, hx, hnext⟩ := bind_eq_ok h
      cases outer with
      | nil => cases hnext
      | cons level outer =>
        obtain ⟨us, levels, houter, hlevel, rfl⟩ := houter
        have hsum := derives_join .product .or hsum hproduct hx
        have hafter := after_accept houter hlevel (.primary (.parenthesized hsum)) hnext
        simpa using hafter
    | bang | lparen | ident name =>
      obtain ⟨x, -, hnext⟩ := bind_eq_ok h
      cases outer <;> cases hnext

theorem after_run {state next : State} (hstate : state.After ts) (h : run limit state us = .ok next) :
    next.After (ts ++ us) :=
  run_invariant (P := fun ts state => state.After ts) ts (fun hstate _ h => after_step hstate h) hstate h

theorem derives_finish {state : State} (hstate : state.After ts) (h : finish limit state = .ok e) : Derives .sum ts e := by
  cases state with
  | due level outer => cases h
  | read depth sum product outer =>
    obtain ⟨us, vs, ws, houter, hsum, hproduct, rfl⟩ := hstate
    obtain ⟨x, hx, hfinal⟩ := bind_eq_ok h
    cases outer with
    | nil =>
      cases hfinal
      obtain rfl := houter
      exact derives_join .product .or hsum hproduct hx
    | cons level outer => cases hfinal

theorem derives_of_ofTokens (h : Expr.ofTokens limit ts = .ok e) : Derives .sum ts e := by
  obtain ⟨state, hstate, hfinish⟩ := bind_eq_ok h
  exact derives_finish (after_run after_start hstate) hfinish

/-! ### What is derived is read -/

/-- A phrase is read wherever phrases of its kind may stand. -/
def Phrase.Reads (limit : Nat) : Phrase → List Token → Nat → Expr → Prop
  | .sum => ReadsSum limit
  | .product => ReadsProduct limit
  | .unary | .primary => ReadsUnit limit

/-- A derived phrase is read, and it is nested at least as deep as its tree is high, but not deeper than
    it has tokens. -/
theorem reads_of_derives {phrase : Phrase} (limit : Nat) (h : Derives phrase ts e) :
    ∃ n, phrase.Reads limit ts n e ∧ 1 ≤ n ∧ e.height ≤ n ∧ n ≤ ts.length := by
  induction h with
  | product _ ih =>
    obtain ⟨n, hreads, hn⟩ := ih
    exact ⟨n, hreads.sum, hn⟩
  | or _ _ iha ihb =>
    obtain ⟨m, ha, hm, hma, hmt⟩ := iha
    obtain ⟨n, hb, hn, hnb, hnt⟩ := ihb
    refine ⟨_, ha.or hb, ?_⟩
    simp only [Expr.height, List.length_append, List.length_cons]
    omega
  | unary _ ih =>
    obtain ⟨n, hreads, hn⟩ := ih
    exact ⟨n, hreads.product, hn⟩
  | and _ _ iha ihb =>
    obtain ⟨m, ha, hm, hma, hmt⟩ := iha
    obtain ⟨n, hb, hn, hnb, hnt⟩ := ihb
    refine ⟨_, ha.and hb, ?_⟩
    simp only [Expr.height, List.length_append, List.length_cons]
    omega
  | not _ ih =>
    obtain ⟨n, hreads, hn, hheight, hlength⟩ := ih
    refine ⟨n + 1, hreads.not hn, ?_⟩
    simp only [Expr.height, List.length_cons]
    omega
  | primary _ ih => exact ih
  | parenthesized _ ih =>
    obtain ⟨n, hreads, hn, hheight, hlength⟩ := ih
    refine ⟨n + 1, hreads.parenthesized hn, ?_⟩
    simp only [List.length_append, List.length_cons, List.length_nil]
    omega
  | litTrue | litFalse => exact ⟨1, readsUnit_leaf rfl rfl, Nat.le_refl _, Nat.le_refl _, Nat.le_refl _⟩
  | var htrue hfalse =>
    refine ⟨1, readsUnit_leaf ?_ rfl, Nat.le_refl _, Nat.le_refl _, Nat.le_refl _⟩
    rw [leaf, if_neg htrue, if_neg hfalse]

theorem ofTokens_of_derives (h : Derives .sum ts e) (hlimit : ts.length ≤ limit) : Expr.ofTokens limit ts = .ok e := by
  obtain ⟨n, hreads, hn, -, hlength⟩ := reads_of_derives limit h
  have hsum : ReadsSum limit ts n e := hreads
  rw [hsum.ofTokens_eq (by omega), if_pos (by omega)]

end Parser

namespace Expr
open Minterm.Parser

/-- Under a limit that exceeds the number of tokens exactly the sentences of the grammar are read, each as the
    tree that it stands for; so no list of tokens stands for two trees. -/
theorem reads_exactly_the_grammar (tokens : List Token) :
    (∀ limit, tokens.length + 1 ≤ limit → ∀ e, ofTokens limit tokens = .ok e ↔ Derives .sum tokens e) ∧
      ∀ a b, Derives .sum tokens a → Derives .sum tokens b → a = b := by
  refine ⟨fun limit hlimit e => ⟨derives_of_ofTokens, fun h => ?_⟩, fun a b ha hb => ?_⟩
  · exact ofTokens_of_derives h (by omega)
  · have hread := ofTokens_of_derives ha (Nat.le_refl _)
    rw [ofTokens_of_derives hb (Nat.le_refl _)] at hread
    exact (Except.ok.inj hread).symm

/-- A negated sum, a chain of three factors and a constant. -/
theorem reads_exactly_the_grammar_negated :
    let tokens : List Token :=
      [.bang, .lparen, .ident "a", .bar, .ident "b", .rparen, .amp, .ident "c", .amp, .ident "true"]
    let e : Expr := .and (.and (.not (.or (.var "a") (.var "b"))) (.var "c")) (.lit true)
    tokens.length + 1 ≤ 11 ∧ Derives .sum tokens e ∧ ∀ other, Derives .sum tokens other → other = e := by
  intro tokens e
  obtain ⟨hread, hunique⟩ := reads_exactly_the_grammar tokens
  have hderives : Derives .sum tokens e := (hread 11 (by decide) e).mp rfl
  exact ⟨by decide, hderives, fun other hother => hunique other e hother hderives⟩

end Expr
end Minterm
