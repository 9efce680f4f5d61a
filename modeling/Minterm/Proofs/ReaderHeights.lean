import Minterm.Proofs.Grammar

/-! The heights and depths that the reader keeps. An operand comes with the height of its tree, and a level with
    the number of parentheses and negations around it (`State.Measured`). A tree is no higher than it has
    tokens, and each level around a place has a token of its own; so a limit that exceeds the number of
    tokens leaves room for every step. -/

namespace Minterm
namespace Parser

variable {limit : Nat}

/-! ### Heights and depths -/

/-- The height that is kept with an operand is that of its tree. -/
def Operand.Measured (x : Operand) : Prop := x.height = x.expr.height

structure Level.Measured (level : Level) : Prop where
  sum : ∀ x ∈ level.sum, x.Measured
  product : ∀ x ∈ level.product, x.Measured

/-- The levels around a depth: a parenthesis, and the negations before it, further out at each level. -/
def Nests : Nat → List Level → Prop
  | depth, [] => depth = 0
  | depth, level :: outer => depth = level.depth + level.bangs + 1 ∧ level.Measured ∧ Nests level.depth outer

def State.Measured : State → Prop
  | .due level outer => level.Measured ∧ Nests level.depth outer
  | .read depth sum product outer => (∀ x ∈ sum, x.Measured) ∧ product.Measured ∧ Nests depth outer

theorem measured_new (depth : Nat) : Level.Measured ⟨depth, none, none, 0⟩ := ⟨nofun, nofun⟩

theorem measured_start : start.Measured := ⟨measured_new 0, rfl⟩

theorem measured_leaf (name : String) : Operand.Measured ⟨leaf name, 1⟩ := by
  unfold Operand.Measured leaf
  split
  · rfl
  · split <;> rfl

theorem measured_negate {x : Operand} (h : x.Measured) (n : Nat) : (x.negate n).Measured := by
  induction n generalizing x with
  | zero => exact h
  | succ n ih => exact ih (congrArg (· + 1) h)

theorem height_negate (x : Operand) (n : Nat) : (x.negate n).height = x.height + n := by
  induction n generalizing x with
  | zero => rfl
  | succ n ih => rw [Operand.negate, ih, Nat.add_assoc, Nat.add_comm 1 n]

theorem measured_join {connect : Expr → Expr → Expr}
    (hconnect : ∀ a b, (connect a b).height = max a.height b.height + 1) {depth : Nat} {left : Option Operand}
    {right x : Operand} (hleft : ∀ l ∈ left, l.Measured) (hright : right.Measured)
    (h : join limit depth connect left right = .ok x) : x.Measured := by
  cases left with
  | none =>
    cases h
    exact hright
  | some left =>
    rw [join_some] at h
    cases eq_ok_of_guardHeight h
    show max left.height right.height + 1 = (connect left.expr right.expr).height
    rw [hconnect, hleft left rfl, hright]

theorem measured_accept {level : Level} {outer : List Level} {x : Operand} {state : State} (hlevel : level.Measured)
    (houter : Nests level.depth outer) (hx : x.Measured) (h : level.accept limit outer x = .ok state) :
    state.Measured := by
  obtain ⟨product, hjoin, hstate⟩ := bind_eq_ok h
  cases hstate
  exact ⟨hlevel.sum, measured_join (fun _ _ => rfl) hlevel.product (measured_negate hx _) hjoin, houter⟩

theorem measured_step {state next : State} {token : Token} (hstate : state.Measured)
    (h : step limit state token = .ok next) : next.Measured := by
  cases state with
  | due level outer =>
    obtain ⟨hlevel, houter⟩ := hstate
    cases token with
    | bang =>
      cases eq_ok_of_guardHeight h
      exact ⟨⟨hlevel.sum, hlevel.product⟩, houter⟩
    | lparen =>
      cases eq_ok_of_guardHeight h
      exact ⟨measured_new _, rfl, hlevel, houter⟩
    | ident name => exact measured_accept hlevel houter (measured_leaf name) h
    | amp | bar | rparen => cases h
  | read depth sum product outer =>
    obtain ⟨hsum, hproduct, houter⟩ := hstate
    cases token with
    | amp =>
      cases h
      exact ⟨⟨hsum, fun x hx => Option.some.inj hx ▸ hproduct⟩, houter⟩
    | bar =>
      obtain ⟨x, hx, hnext⟩ := bind_eq_ok h
      cases hnext
      have hjoined : x.Measured := measured_join (fun _ _ => rfl) hsum hproduct hx
      exact ⟨⟨fun y hy => Option.some.inj hy ▸ hjoined, nofun⟩, houter⟩
    | rparen =>
      obtain ⟨x, hx, hnext⟩ := bind_eq_ok h
      cases outer with
      | nil => cases hnext
      | cons level outer =>
        obtain ⟨-, hlevel, houter⟩ := houter
        exact measured_accept hlevel houter (measured_join (fun _ _ => rfl) hsum hproduct hx) hnext
    | bang | lparen | ident name =>
      obtain ⟨x, -, hnext⟩ := bind_eq_ok h
      cases outer <;> cases hnext

theorem measured_run {state next : State} {tokens : List Token} (hstate : state.Measured)
    (h : run limit state tokens = .ok next) : next.Measured :=
  run_invariant (P := fun _ state => state.Measured) [] (fun hstate _ h => measured_step hstate h) hstate h

/-! ### Room for all tokens -/

variable {ts us vs : List Token}

theorem height_le_length {phrase : Phrase} {e : Expr} (h : Derives phrase ts e) : e.height ≤ ts.length := by
  obtain ⟨n, -, -, hheight, hlength⟩ := reads_of_derives 0 h
  exact Nat.le_trans hheight hlength

theorem bangs_le_length {level : Level} (h : level.After vs) : level.bangs ≤ vs.length := by
  obtain ⟨sums, products, -, -, rfl⟩ := h
  rw [List.length_append, List.length_replicate]
  exact Nat.le_add_left _ _

/-- Each level around a place has a token of its own. -/
theorem depth_le_length {depth : Nat} {outer : List Level} (h : Nests depth outer) (houter : Enclosed outer us) :
    depth ≤ us.length := by
  induction outer generalizing depth us with
  | nil =>
    obtain rfl := houter
    exact Nat.le_of_eq h
  | cons level outer ih =>
    obtain ⟨us, vs, houter, hlevel, rfl⟩ := houter
    obtain ⟨rfl, -, hrest⟩ := h
    have hdepth := ih hrest houter
    have hbangs := bangs_le_length hlevel
    simp only [List.length_append, List.length_singleton]
    omega

theorem exists_join {phrase : Phrase} {connective : Token} (connect : Expr → Expr → Expr) {depth : Nat}
    {left : Option Operand} {right : Operand} (hleft : Waits phrase connective ts left) (hmeasured : ∀ l ∈ left, l.Measured)
    (hroom : depth + ts.length + right.height ≤ limit) : ∃ x, join limit depth connect left right = .ok x := by
  cases left with
  | none => exact ⟨right, rfl⟩
  | some left =>
    obtain ⟨us, rfl, hus⟩ := hleft
    have hheight := height_le_length hus
    rw [← hmeasured left rfl] at hheight
    rw [List.length_append, List.length_singleton] at hroom
    exact ⟨_, by rw [join_some, guardHeight_of_le (by omega)]; rfl⟩

theorem exists_accept {level : Level} {outer : List Level} {x : Operand} (houter : Enclosed outer us)
    (hlevel : level.After vs) (hmeasured : level.Measured) (hnests : Nests level.depth outer)
    (hroom : us.length + vs.length + x.height ≤ limit) : ∃ state, level.accept limit outer x = .ok state := by
  obtain ⟨sums, products, -, hproduct, rfl⟩ := hlevel
  have hdepth := depth_le_length hnests houter
  have hjoin : ∃ product, join limit level.depth .and level.product (x.negate level.bangs) = .ok product := by
    refine exists_join .and hproduct hmeasured.product ?_
    simp only [List.length_append, List.length_replicate] at hroom
    rw [height_negate]
    omega
  obtain ⟨product, hproduct⟩ := hjoin
  exact ⟨_, by rw [Level.accept, hproduct]; rfl⟩

theorem exists_join_sum {depth : Nat} {sum : Option Operand} {product : Operand} {outer : List Level}
    {ws : List Token} (houter : Enclosed outer us) (hsum : Waits .sum .bar vs sum) (hproduct : Derives .product ws product.expr)
    (hmeasured : (State.read depth sum product outer).Measured) (hroom : (us ++ vs ++ ws).length ≤ limit) :
    ∃ x, join limit depth .or sum product = .ok x ∧ x.height ≤ (vs ++ ws).length := by
  obtain ⟨hsums, hproducts, hnests⟩ := hmeasured
  have hdepth := depth_le_length hnests houter
  have hheight := height_le_length hproduct
  rw [← hproducts] at hheight
  simp only [List.length_append] at hroom
  obtain ⟨x, hx⟩ := exists_join .or hsum hsums (show depth + vs.length + product.height ≤ limit by omega)
  have hderives : Derives .sum (vs ++ ws) x.expr := derives_join .product .or hsum hproduct hx
  have hexact : x.Measured := measured_join (fun _ _ => rfl) hsums hproducts hx
  exact ⟨x, hx, hexact ▸ height_le_length hderives⟩

/-- A limit beyond the tokens read so far and the next one is not met. -/
theorem step_ne_tooDeep {state : State} {token : Token} (hafter : state.After ts) (hmeasured : state.Measured)
    (hlimit : ts.length + 2 ≤ limit) (bound : Nat) : step limit state token ≠ .error (.tooDeep bound) := by
  intro h
  cases state with
  | due level outer =>
    obtain ⟨us, vs, houter, hlevel, rfl⟩ := hafter
    obtain ⟨hoperands, hnests⟩ := hmeasured
    have hdepth := depth_le_length hnests houter
    have hbangs := bangs_le_length hlevel
    rw [List.length_append] at hlimit
    cases token with
    | bang | lparen =>
      rw [step, guardHeight_of_le (by omega)] at h
      cases h
    | ident name =>
      have hroom : us.length + vs.length + 1 ≤ limit := by omega
      have haccepted : ∃ next, level.accept limit outer ⟨leaf name, 1⟩ = .ok next :=
        exists_accept houter hlevel hoperands hnests hroom
      obtain ⟨next, hnext⟩ := haccepted
      cases hnext.symm.trans h
    | amp | bar | rparen => cases h
  | read depth sum product outer =>
    obtain ⟨us, vs, ws, houter, hsum, hproduct, rfl⟩ := hafter
    obtain ⟨x, hx, hheight⟩ := exists_join_sum houter hsum hproduct hmeasured (Nat.le_trans (Nat.le_add_right _ 2) hlimit)
    cases token with
    | amp => cases h
    | rparen =>
      have hclosed := eq_error_of_bind hx h
      cases outer with
      | nil => cases hclosed
      | cons level outer =>
        obtain ⟨us, levels, houter, hlevel, rfl⟩ := houter
        obtain ⟨-, -, -, hoperands, hnests⟩ := hmeasured
        simp only [List.length_append] at hlimit hheight
        have hroom : us.length + levels.length + x.height ≤ limit := by omega
        obtain ⟨next, hnext⟩ := exists_accept houter hlevel hoperands hnests hroom
        cases hnext.symm.trans hclosed
    | bar | bang | lparen | ident name =>
      have hclosed := eq_error_of_bind hx h
      cases outer <;> cases hclosed

theorem finish_ne_tooDeep {state : State} (hafter : state.After ts) (hmeasured : state.Measured)
    (hlimit : ts.length ≤ limit) (bound : Nat) : finish limit state ≠ .error (.tooDeep bound) := by
  intro h
  cases state with
  | due level outer => cases h
  | read depth sum product outer =>
    obtain ⟨us, vs, ws, houter, hsum, hproduct, rfl⟩ := hafter
    obtain ⟨x, hx, -⟩ := exists_join_sum houter hsum hproduct hmeasured hlimit
    have hclosed := eq_error_of_bind hx h
    cases outer <;> cases hclosed

theorem ofTokens_ne_tooDeep {tokens : List Token} (hlimit : tokens.length + 1 ≤ limit) (bound : Nat) :
    Expr.ofTokens limit tokens ≠ .error (.tooDeep bound) := by
  intro h
  rcases bind_eq_error h with hrun | ⟨state, hrun, hfinish⟩
  · obtain ⟨k, token, next, hk, hnext, hstep⟩ := fault_of_run hrun
    have hafter : next.After (tokens.take k) := after_run after_start hnext
    have hlength : k < tokens.length := (List.getElem?_eq_some_iff.mp hk).1
    refine step_ne_tooDeep hafter (measured_run measured_start hnext) ?_ bound hstep
    rw [List.length_take]
    omega
  · have hafter : state.After tokens := after_run after_start hrun
    exact finish_ne_tooDeep hafter (measured_run measured_start hrun) (by omega) bound hfinish

end Parser
end Minterm
