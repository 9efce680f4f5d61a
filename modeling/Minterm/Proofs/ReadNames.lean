import Minterm.Proofs.Lists
import Minterm.Proofs.Reading

/-! The names of an expression that has been read. Every operand that the reader holds has names that are
    read as variables; a step keeps this, and so does a run. -/

namespace Minterm
namespace Parser

/-! ### The invariant -/

/-- All operands that wait at a level have readable names. -/
structure Level.Readable (level : Level) : Prop where
  sum : ∀ x ∈ level.sum, x.expr.Readable
  product : ∀ x ∈ level.product, x.expr.Readable

/-- All operands of a state have readable names. -/
def State.Readable : State → Prop
  | .due level outer => level.Readable ∧ ∀ l ∈ outer, l.Readable
  | .read _ sum product outer => (∀ x ∈ sum, x.expr.Readable) ∧ product.expr.Readable ∧ ∀ l ∈ outer, l.Readable

variable {limit : Nat}

theorem readable_new (depth : Nat) : Level.Readable ⟨depth, none, none, 0⟩ :=
  ⟨fun _ h => (nomatch h), fun _ h => (nomatch h)⟩

theorem readable_start : start.Readable := ⟨readable_new 0, fun _ h => (nomatch h)⟩

/-! ### Parts of a step -/

theorem readable_leaf {name : String} (h : (Token.ident name).Spellable) : (leaf name).Readable := by
  unfold leaf
  split
  · exact fun _ h => (nomatch h)
  · rename_i htrue
    split
    · exact fun _ h => (nomatch h)
    · rename_i hfalse
      intro other hother
      obtain rfl := List.mem_singleton.mp hother
      exact ⟨h.1, h.2, htrue, hfalse⟩

theorem readable_negate {x : Operand} (h : x.expr.Readable) (n : Nat) : (x.negate n).expr.Readable := by
  induction n generalizing x with
  | zero => exact h
  | succ n ih => exact ih h

theorem readable_join {depth : Nat} {connect : Expr → Expr → Expr} {left : Option Operand} {right x : Operand}
    (hconnect : ∀ a b, (connect a b).names = a.names ++ b.names) (hleft : ∀ y ∈ left, y.expr.Readable)
    (hright : right.expr.Readable) (h : join limit depth connect left right = .ok x) : x.expr.Readable := by
  cases left with
  | none =>
    cases h
    exact hright
  | some left =>
    rw [join_some] at h
    cases eq_ok_of_guardHeight h
    intro name hname
    rcases List.mem_append.mp (hconnect left.expr right.expr ▸ hname) with hn | hn
    · exact hleft left rfl name hn
    · exact hright name hn

theorem readable_accept {level : Level} {outer : List Level} {x : Operand} {state : State} (hlevel : level.Readable)
    (houter : ∀ l ∈ outer, l.Readable) (hx : x.expr.Readable) (h : level.accept limit outer x = .ok state) :
    state.Readable := by
  obtain ⟨product, hproduct, hstate⟩ := bind_eq_ok h
  cases hstate
  exact ⟨hlevel.sum, readable_join Expr.names_and hlevel.product (readable_negate hx _) hproduct, houter⟩

/-! ### Steps and runs -/

theorem readable_step {state next : State} {token : Token} (hstate : state.Readable) (htoken : token.Spellable)
    (h : step limit state token = .ok next) : next.Readable := by
  cases state with
  | due level outer =>
    obtain ⟨hlevel, houter⟩ := hstate
    cases token with
    | bang =>
      cases eq_ok_of_guardHeight h
      exact ⟨⟨hlevel.sum, hlevel.product⟩, houter⟩
    | lparen =>
      cases eq_ok_of_guardHeight h
      exact ⟨readable_new _, List.forall_mem_cons.mpr ⟨hlevel, houter⟩⟩
    | ident name => exact readable_accept hlevel houter (readable_leaf htoken) h
    | amp | bar | rparen => cases h
  | read depth sum product outer =>
    obtain ⟨hsum, hproduct, houter⟩ := hstate
    cases token with
    | amp =>
      cases h
      refine ⟨⟨hsum, fun x hx => ?_⟩, houter⟩
      cases hx
      exact hproduct
    | bar =>
      obtain ⟨x, hx, hnext⟩ := bind_eq_ok h
      cases hnext
      refine ⟨⟨fun y hy => ?_, fun _ h => (nomatch h)⟩, houter⟩
      cases hy
      exact readable_join Expr.names_or hsum hproduct hx
    | rparen =>
      obtain ⟨x, hx, hnext⟩ := bind_eq_ok h
      cases outer with
      | nil => cases hnext
      | cons level outer =>
        obtain ⟨hlevel, houter⟩ := List.forall_mem_cons.mp houter
        exact readable_accept hlevel houter (readable_join Expr.names_or hsum hproduct hx) hnext
    | bang | lparen | ident name =>
      obtain ⟨x, -, hnext⟩ := bind_eq_ok h
      cases outer <;> cases hnext

theorem readable_run {state next : State} {tokens : List Token} (hstate : state.Readable)
    (htokens : ∀ token ∈ tokens, token.Spellable) (h : run limit state tokens = .ok next) : next.Readable :=
  run_invariant (P := fun _ state => state.Readable) [] (fun hstate ht h => readable_step hstate (htokens _ ht) h) hstate h

theorem readable_finish {state : State} {e : Expr} (hstate : state.Readable) (h : finish limit state = .ok e) :
    e.Readable := by
  cases state with
  | due level outer => cases h
  | read depth sum product outer =>
    obtain ⟨hsum, hproduct, -⟩ := hstate
    obtain ⟨x, hx, he⟩ := bind_eq_ok h
    cases outer with
    | nil =>
      cases he
      exact readable_join Expr.names_or hsum hproduct hx
    | cons level outer => cases he

end Parser

/-- The names of an expression that has been read are read as variables again. -/
theorem Expr.readable_of_ofText {text : String} {e : Expr} (h : ofText text = .ok e) : e.Readable := by
  obtain ⟨tokens, htokens, hread⟩ := bind_eq_ok h
  obtain ⟨state, hstate, hfinish⟩ := bind_eq_ok hread
  exact Parser.readable_finish
    (Parser.readable_run Parser.readable_start (Token.spellable_of_scan htokens) hstate) hfinish

end Minterm
