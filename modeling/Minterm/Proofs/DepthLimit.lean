import Minterm.Proofs.ReaderHeights

/-! The limit on the height. Under two limits the reader takes the same steps until the smaller one is met
    (`Agrees`), so a limit turns some answers into its own fault and changes no other. -/

namespace Minterm
namespace Parser

/-- The result under a limit, against the result under another one. -/
def Agrees {α : Type} (limit : Nat) (x y : Except Fault α) : Prop := x = .error (.tooDeep limit) ∨ x = y

variable {limit larger : Nat}

theorem Agrees.refl {α : Type} (x : Except Fault α) : Agrees limit x x := Or.inr rfl

theorem Agrees.bind {α β : Type} {x y : Except Fault α} {f g : α → Except Fault β} (hx : Agrees limit x y)
    (hf : ∀ a, Agrees limit (f a) (g a)) : Agrees limit (x >>= f) (y >>= g) := by
  rcases hx with rfl | rfl
  · exact Or.inl rfl
  · cases x with
    | error fault => exact Or.inr rfl
    | ok a => exact hf a

theorem agrees_guardHeight (h : limit ≤ larger) (depth height : Nat) :
    Agrees limit (guardHeight limit depth height) (guardHeight larger depth height) := by
  by_cases hle : depth + height ≤ limit
  · right
    rw [guardHeight_of_le hle, guardHeight_of_le (Nat.le_trans hle h)]
  · exact Or.inl (guardHeight_of_lt (Nat.not_le.mp hle))

theorem agrees_join (h : limit ≤ larger) (depth : Nat) (connect : Expr → Expr → Expr) (left : Option Operand)
    (right : Operand) : Agrees limit (join limit depth connect left right) (join larger depth connect left right) := by
  cases left with
  | none => exact .refl _
  | some left => exact (agrees_guardHeight h _ _).bind fun _ => .refl _

theorem agrees_accept (h : limit ≤ larger) (level : Level) (outer : List Level) (x : Operand) :
    Agrees limit (level.accept limit outer x) (level.accept larger outer x) :=
  (agrees_join h _ _ _ _).bind fun _ => .refl _

theorem agrees_step (h : limit ≤ larger) (state : State) (token : Token) :
    Agrees limit (step limit state token) (step larger state token) := by
  cases state with
  | due level outer =>
    cases token with
    | bang | lparen => exact (agrees_guardHeight h _ _).bind fun _ => .refl _
    | ident name => exact agrees_accept h level outer _
    | amp | bar | rparen => exact .refl _
  | read depth sum product outer =>
    cases token with
    | amp => exact .refl _
    | rparen =>
      refine (agrees_join h _ _ _ _).bind fun x => ?_
      cases outer with
      | nil => exact .refl _
      | cons level outer => exact agrees_accept h level outer x
    | bar => exact (agrees_join h _ _ _ _).bind fun _ => .refl _
    | bang | lparen | ident name => exact (agrees_join h _ _ _ _).bind fun _ => by cases outer <;> exact .refl _

theorem agrees_run (h : limit ≤ larger) (state : State) (tokens : List Token) :
    Agrees limit (run limit state tokens) (run larger state tokens) := by
  induction tokens generalizing state with
  | nil => exact .refl _
  | cons token tokens ih =>
    rw [run_cons, run_cons]
    exact (agrees_step h state token).bind ih

theorem agrees_finish (h : limit ≤ larger) (state : State) : Agrees limit (finish limit state) (finish larger state) := by
  cases state with
  | due level outer => exact .refl _
  | read depth sum product outer =>
    refine (agrees_join h _ _ _ _).bind fun _ => ?_
    cases outer <;> exact .refl _

end Parser

namespace Expr
open Minterm.Parser

/-- A smaller limit changes an answer into its own fault or not at all, and a limit that exceeds the number of
    tokens is not met. -/
theorem limit_only_refuses (tokens : List Token) :
    (∀ limit larger, limit ≤ larger →
      ofTokens limit tokens = .error (.tooDeep limit) ∨ ofTokens limit tokens = ofTokens larger tokens) ∧
      ∀ limit, tokens.length + 1 ≤ limit → ∀ bound, ofTokens limit tokens ≠ .error (.tooDeep bound) :=
  ⟨fun _ _ h => (agrees_run h start tokens).bind (agrees_finish h), fun _ => ofTokens_ne_tooDeep⟩

/-- A parenthesis that is not closed: the fault is the same from limit 3 on, and a smaller one is met before. -/
theorem limit_only_refuses_unclosed :
    let tokens : List Token := [.lparen, .ident "a", .amp, .ident "b"]
    2 ≤ 9 ∧ ofTokens 2 tokens = .error (.tooDeep 2) ∧
      3 ≤ 9 ∧ ofTokens 3 tokens = ofTokens 9 tokens ∧
      tokens.length + 1 ≤ 9 ∧ ofTokens 9 tokens ≠ .error (.tooDeep 9) := by
  intro tokens
  obtain ⟨hagrees, hroom⟩ := limit_only_refuses tokens
  have hsmall : ofTokens 2 tokens = .error (.tooDeep 2) := (hagrees 2 9 (by decide)).resolve_right nofun
  have hlarge : ofTokens 3 tokens = ofTokens 9 tokens := (hagrees 3 9 (by decide)).resolve_left nofun
  exact ⟨by decide, hsmall, by decide, hlarge, by decide, hroom 9 (by decide) 9⟩

end Expr
end Minterm
