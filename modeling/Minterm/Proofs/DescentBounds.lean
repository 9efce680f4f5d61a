import Minterm.Proofs.Descent

/-! The limit bounds the trees and the depth of the recursion. A call is made only where a single name still fits
    under the limit (`Event.Within`), and an answer has its true height, which fits below the depth of its call
    (`Operand.Fits`). No height is checked behind a negation, a parenthesis or a name: there the fit of the
    answer comes from the depth of the call within it. -/

namespace Minterm
namespace Parser

variable {limit : Nat} {ts us : List Token}

/-! ### Recorded computations -/

namespace Recorded

variable {α β : Type}

/-- All events satisfy `E`, and the value, if there is one, satisfies `P`. -/
structure Ensures (x : Recorded α) (E : Event → Prop) (P : α → Prop) : Prop where
  events : ∀ event ∈ x.events, E event
  result : ∀ a, x.result = .ok a → P a

variable {E : Event → Prop} {P : α → Prop} {Q : β → Prop}

theorem Ensures.bind {x : Recorded α} {f : α → Recorded β} (hx : x.Ensures E P) (hf : ∀ a, P a → (f a).Ensures E Q) :
    (x >>= f).Ensures E Q := by
  obtain ⟨events, _ | a⟩ := x
  · exact ⟨hx.events, nofun⟩
  · have ha := hf a (hx.result a rfl)
    exact ⟨List.forall_mem_append.mpr ⟨hx.events, ha.events⟩, ha.result⟩

theorem ensures_pure {a : α} (h : P a) : (pure a : Recorded α).Ensures E P :=
  ⟨nofun, fun _ hb => Except.ok.inj hb ▸ h⟩

theorem ensures_ofExcept {x : Except Fault α} (h : ∀ a, x = .ok a → P a) : (ofExcept x).Ensures E P := ⟨nofun, h⟩

theorem ensures_emit {event : Event} (h : E event) : (emit event).Ensures E fun _ => True :=
  ⟨List.forall_mem_singleton.mpr h, fun _ _ => trivial⟩

end Recorded

open Recorded (ofExcept)

/-! ### The bound on depths and heights -/

/-- An answer has its true height, and it fits below the depth of its call. -/
structure Operand.Fits (limit depth : Nat) (x : Operand) : Prop where
  measured : x.Measured
  within : depth + x.height ≤ max limit 1

def Event.Within (limit : Nat) : Event → Prop
  | .call _ depth => depth < max limit 1
  | .answer _ depth x => x.Fits limit depth

theorem ensures_recorded {phrase : Phrase} {depth : Nat} {body : Recorded (Front phrase ts)}
    (hdepth : depth < max limit 1) (hbody : body.Ensures (Event.Within limit) fun x => x.operand.Fits limit depth) :
    (recorded depth body).Ensures (Event.Within limit) fun x => x.operand.Fits limit depth :=
  (Recorded.ensures_emit hdepth).bind fun _ _ =>
    hbody.bind fun _ hx => (Recorded.ensures_emit hx).bind fun _ _ => Recorded.ensures_pure hx

theorem ensures_guardHeight {E : Event → Prop} (depth height : Nat) :
    (ofExcept (guardHeight limit depth height)).Ensures E fun _ => depth + height ≤ limit :=
  Recorded.ensures_ofExcept fun _ h => le_of_guardHeight h

theorem fits_name {depth : Nat} {x : Front .primary ts} (hdepth : depth < max limit 1) (h : Front.name ts = .ok x) :
    x.operand.Fits limit depth := by
  unfold Front.name at h
  split at h <;> cases h
  exact ⟨measured_leaf _, hdepth⟩

theorem fits_negate {depth : Nat} {x : Front .unary us} (hx : x.operand.Fits limit (depth + 1)) :
    x.negate.operand.Fits limit depth := by
  have hwithin : depth + (x.operand.height + 1) ≤ max limit 1 := by
    have hx := hx.within
    omega
  exact ⟨congrArg (· + 1) hx.measured, hwithin⟩

theorem fits_close {depth : Nat} {x : Front .sum us} {y : Front .primary (.lparen :: us)}
    (hx : x.operand.Fits limit (depth + 1)) (h : x.close = .ok y) : y.operand.Fits limit depth := by
  have hwithin := hx.within
  have hsame : y.operand = x.operand := by
    unfold Front.close at h
    split at h <;> cases h
    rfl
  exact hsame ▸ ⟨hx.measured, by omega⟩

theorem fits_join {chain : Chain} {depth : Nat} {left right x : Operand} (hleft : left.Fits limit depth)
    (hright : right.Fits limit depth) (h : join limit depth chain.connect (some left) right = .ok x) :
    x.Fits limit depth := by
  refine ⟨measured_join chain.height_connect (fun l hl => Option.some.inj hl ▸ hleft.measured) hright.measured h, ?_⟩
  rw [join_some] at h
  obtain ⟨_, hguard, hx⟩ := bind_eq_ok h
  cases hx
  exact Nat.le_trans (le_of_guardHeight hguard) (Nat.le_max_left limit 1)

/-- A call within the limit leads to such calls alone, and to answers that fit. -/
def Phrase.Bounded (limit : Nat) (phrase : Phrase) (depth : Nat) (ts : List Token) : Prop :=
  depth < max limit 1 →
    (descend limit phrase depth ts).Ensures (Event.Within limit) fun x => x.operand.Fits limit depth

def Chain.Bounded (limit : Nat) (chain : Chain) (depth : Nat) (left : Front chain.inner ts) : Prop :=
  depth < max limit 1 → left.operand.Fits limit depth →
    (extend limit chain depth left).Ensures (Event.Within limit) fun x => x.operand.Fits limit depth

theorem descend_bounded (limit : Nat) (phrase : Phrase) (depth : Nat) (ts : List Token) :
    phrase.Bounded limit depth ts := by
  refine descend_induction (N := fun chain depth _ left => chain.Bounded limit depth left)
    ?sum ?product ?bang ?unary ?lparen ?primary ?complete ?connective phrase depth ts
  case sum | product =>
    intro depth ts hinner hextend hdepth
    rw [descend]
    exact ensures_recorded hdepth ((hinner hdepth).bind fun left hleft => hextend left hdepth hleft)
  case bang =>
    intro depth us hunary hdepth
    rw [descend]
    refine ensures_recorded hdepth ((ensures_guardHeight _ _).bind fun _ hlimit => ?_)
    -- The guard leaves room for a name one level below: the bound on the call's depth.
    exact (hunary (by omega)).bind fun x hx => Recorded.ensures_pure (fits_negate hx)
  case unary =>
    intro depth ts hts hprimary hdepth
    rw [descend_unary hts]
    exact ensures_recorded hdepth ((hprimary hdepth).bind fun x hx => Recorded.ensures_pure hx)
  case lparen =>
    intro depth us hsum hdepth
    rw [descend]
    refine ensures_recorded hdepth ((ensures_guardHeight _ _).bind fun _ hlimit => ?_)
    exact (hsum (by omega)).bind fun x hx => Recorded.ensures_ofExcept fun _ hy => fits_close hx hy
  case primary =>
    intro depth ts hts hdepth
    rw [descend_primary hts]
    exact ensures_recorded hdepth (Recorded.ensures_ofExcept fun x hx => fits_name hdepth hx)
  case complete =>
    intro chain depth ts left h hdepth hleft
    rw [extend_complete h]
    exact Recorded.ensures_pure hleft
  case connective =>
    intro chain depth ts us left h hinner hextend hdepth hleft
    rw [extend_cons h]
    refine (hinner hdepth).bind fun right hright => ?_
    refine (Recorded.ensures_ofExcept fun _ hx => fits_join hleft hright hx).bind fun x hx => ?_
    exact hextend right x hdepth hx

theorem descent_bounded (limit : Nat) (tokens : List Token) :
    (descent limit tokens).Ensures (Event.Within limit) fun e => e.height ≤ max limit 1 := by
  have hbounded : Phrase.sum.Bounded limit 0 tokens := descend_bounded limit .sum 0 tokens
  have hstart : 0 < max limit 1 := Nat.lt_of_lt_of_le Nat.one_pos (Nat.le_max_right limit 1)
  refine (hbounded hstart).bind fun x hx => ?_
  split
  · have hwithin := hx.within
    rw [Nat.zero_add] at hwithin
    exact Recorded.ensures_pure (hx.measured ▸ hwithin)
  · exact Recorded.ensures_ofExcept nofun

end Parser

namespace Expr
open Minterm.Parser

/-- The limit bounds the tree and the recursion, also where the tokens are refused: a tree that is read is no higher
    than the limit, unless it is a single name; recursive descent, which has the reader's result, gives the true
    height with each of its answers; and it makes no call below as many levels as the limit allows. -/
theorem limit_bounds_tree_and_descent (limit : Nat) (tokens : List Token) :
    (∀ e, ofTokens limit tokens = .ok e → e.height ≤ max limit 1) ∧
      (descent limit tokens).result = ofTokens limit tokens ∧
      (∀ phrase depth x, .answer phrase depth x ∈ (descent limit tokens).events → x.height = x.expr.height) ∧
      ∀ phrase depth, .call phrase depth ∈ (descent limit tokens).events → depth < max limit 1 := by
  have hresult := result_descent limit tokens
  obtain ⟨hevents, hheight⟩ := descent_bounded limit tokens
  refine ⟨fun e he => hheight e (hresult.trans he), hresult, fun phrase depth x hx => ?_, fun phrase depth hcall => ?_⟩
  · exact (hevents _ hx).measured
  · exact hevents _ hcall

/-- Under the limit 2 one negation is read, and a second one ends the descent before its operand is called for. -/
theorem limit_bounds_tree_and_descent_negated :
    let read : List Token := [.bang, .ident "a"]
    let refused : List Token := [.bang, .bang, .ident "a"]
    let x : Operand := ⟨.not (.var "a"), 2⟩
    (ofTokens 2 read = .ok x.expr ∧ x.expr.height ≤ max 2 1) ∧
      (.answer .unary 0 x ∈ (descent 2 read).events ∧ x.height = x.expr.height) ∧
      (descent 2 refused).result = .error (.tooDeep 2) ∧
      (descent 2 refused).events = [.call .sum 0, .call .product 0, .call .unary 0, .call .unary 1] ∧ 1 < max 2 1 := by
  intro read refused x
  obtain ⟨hheight, -, hanswer, -⟩ := limit_bounds_tree_and_descent 2 read
  obtain ⟨-, hresult, -, hcall⟩ := limit_bounds_tree_and_descent 2 refused
  have hread : ofTokens 2 read = .ok x.expr := rfl
  have hanswered : .answer .unary 0 x ∈ (descent 2 read).events := by decide_cbv
  have hevents : (descent 2 refused).events = [.call .sum 0, .call .product 0, .call .unary 0, .call .unary 1] := by cbv
  have hcalled : .call .unary 1 ∈ (descent 2 refused).events := by decide_cbv
  exact ⟨⟨hread, hheight _ hread⟩, ⟨hanswered, hanswer _ _ _ hanswered⟩, hresult.trans rfl, hevents, hcall _ _ hcalled⟩

end Expr
end Minterm
