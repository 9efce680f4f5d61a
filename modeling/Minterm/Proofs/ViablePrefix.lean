import Minterm.Proofs.DepthLimit

/-! Where the reader stops. What it has read can always be completed: put an operand where one is due and close
    the parentheses. What it refuses can not, whatever follows, because with room for the whole the reader
    would have to read the sentence that begins so. Hence a fault stands at the first token that cannot be
    continued, or at the end of tokens that are only a part of a sentence. -/

namespace Minterm
namespace Parser

/-- The tokens stand for a tree. -/
def Sentence (tokens : List Token) : Prop := ∃ e, Derives .sum tokens e

/-- Some sentence begins with the tokens. -/
def Begins (tokens : List Token) : Prop := ∃ rest, Sentence (tokens ++ rest)

variable {limit : Nat} {ts us vs ws : List Token}

/-! ### What has been read can be completed -/

/-- With the operand that is due at a level, its tokens are a sum. -/
theorem derives_level {level : Level} {x : Expr} (hlevel : level.After vs) (hx : Derives .unary ts x) :
    Sentence (vs ++ ts) := by
  obtain ⟨sums, products, hsum, hproduct, rfl⟩ := hlevel
  have hunary : Derives .unary (List.replicate level.bangs .bang ++ ts) _ := derives_negate (x := ⟨x, 0⟩) hx level.bangs
  have hderives := derives_waiting .product .or hsum (derives_waiting .unary .and hproduct hunary)
  exact ⟨_, by simpa only [List.append_assoc] using hderives⟩

/-- A sum inside open parentheses becomes a sentence when they are closed. -/
theorem sentence_closed {outer : List Level} (houter : Enclosed outer us) (hsum : Sentence ws) :
    Sentence (us ++ ws ++ List.replicate outer.length .rparen) := by
  induction outer generalizing us ws with
  | nil =>
    obtain rfl := houter
    simpa using hsum
  | cons level outer ih =>
    obtain ⟨us, vs, houter, hlevel, rfl⟩ := houter
    obtain ⟨e, hsum⟩ := hsum
    have hclosed := ih houter (derives_level hlevel (.primary (.parenthesized hsum)))
    simpa [List.replicate_succ] using hclosed

theorem begins_of_after {state : State} (h : state.After ts) : Begins ts := by
  cases state with
  | due level outer =>
    obtain ⟨us, vs, houter, hlevel, rfl⟩ := h
    have hclosed := sentence_closed houter (derives_level hlevel (derives_leaf "x"))
    exact ⟨.ident "x" :: List.replicate outer.length .rparen, by simpa using hclosed⟩
  | read depth sum product outer =>
    obtain ⟨us, vs, ws, houter, hsum, hproduct, rfl⟩ := h
    have hclosed := sentence_closed houter ⟨_, derives_waiting .product .or hsum hproduct⟩
    exact ⟨List.replicate outer.length .rparen, by simpa only [List.append_assoc] using hclosed⟩

/-! ### What is refused begins no sentence -/

theorem not_begins_of_fault {fault : Fault} (h : run limit start ts = .error fault) (hdeep : fault ≠ .tooDeep limit) :
    ¬Begins ts := by
  rintro ⟨rest, e, he⟩
  have hread : Expr.ofTokens (max limit (ts ++ rest).length) (ts ++ rest) = .ok e :=
    ofTokens_of_derives he (Nat.le_max_right _ _)
  have hrun : run (max limit (ts ++ rest).length) start ts = .error fault := by
    rcases agrees_run (Nat.le_max_left limit (ts ++ rest).length) start ts with hmet | heq
    · rw [h] at hmet
      exact absurd (Except.error.inj hmet) hdeep
    · rw [← heq, h]
  rw [Expr.ofTokens, run_append, hrun] at hread
  cases hread

/-! ### The faults -/

theorem fault_of_guardHeight {depth height : Nat} {fault : Fault} (h : guardHeight limit depth height = .error fault) :
    fault = .tooDeep limit := by
  by_cases hle : depth + height ≤ limit
  · rw [guardHeight_of_le hle] at h
    cases h
  · rw [guardHeight_of_lt (Nat.not_le.mp hle)] at h
    exact (Except.error.inj h).symm

theorem fault_of_join {depth : Nat} {connect : Expr → Expr → Expr} {left : Option Operand} {right : Operand}
    {fault : Fault} (h : join limit depth connect left right = .error fault) : fault = .tooDeep limit := by
  cases left with
  | none => cases h
  | some left =>
    rcases bind_eq_error h with hguard | ⟨_, -, hjoined⟩
    · exact fault_of_guardHeight hguard
    · cases hjoined

theorem fault_of_accept {level : Level} {outer : List Level} {x : Operand} {fault : Fault}
    (h : level.accept limit outer x = .error fault) : fault = .tooDeep limit := by
  rcases bind_eq_error h with hjoin | ⟨_, -, hread⟩
  · exact fault_of_join hjoin
  · cases hread

/-- The faults that name a token which cannot be continued with. -/
def Refuses (token : Token) (fault : Fault) : Prop :=
  fault = .unexpectedToken token ∨ fault = .trailingToken token ∨ fault = .missingToken .rparen (some token)

theorem fault_of_settle {state : State} {fault : Fault} (h : settle limit state = .error fault) :
    fault = .tooDeep limit := by
  cases state with
  | due level outer => cases h
  | read depth sum product outer =>
    rcases bind_eq_error h with hjoin | ⟨_, -, hsettled⟩
    · exact fault_of_join hjoin
    · cases hsettled

/-- After a sum without an operand that waits, only `)` may meet the limit. -/
theorem fault_of_step_settled {depth : Nat} {x : Operand} {outer : List Level} {token : Token} {fault : Fault}
    (h : step limit (.read depth none x outer) token = .error fault) : fault = .tooDeep limit ∨ Refuses token fault := by
  cases token with
  | amp | bar => cases h
  | rparen =>
    cases outer with
    | nil => exact Or.inr (Or.inr (Or.inl (Except.error.inj h).symm))
    | cons level outer => exact Or.inl (fault_of_accept h)
  | bang | lparen | ident name =>
    cases outer with
    | nil => exact Or.inr (Or.inr (Or.inl (Except.error.inj h).symm))
    | cons level outer => exact Or.inr (Or.inr (Or.inr (Except.error.inj h).symm))

theorem fault_of_step {state : State} {token : Token} {fault : Fault} (h : step limit state token = .error fault) :
    fault = .tooDeep limit ∨ Refuses token fault := by
  cases state with
  | due level outer =>
    cases token with
    | bang | lparen =>
      rcases bind_eq_error h with hguard | ⟨_, -, hnext⟩
      · exact Or.inl (fault_of_guardHeight hguard)
      · cases hnext
    | ident name => exact Or.inl (fault_of_accept h)
    | amp | bar | rparen => exact Or.inr (Or.inl (Except.error.inj h).symm)
  | read depth sum product outer =>
    by_cases hamp : token = .amp
    · subst hamp
      cases h
    · rw [step_settle _ hamp] at h
      rcases bind_eq_error h with hsettle | ⟨settled, hsettle, hstep⟩
      · exact Or.inl (fault_of_settle hsettle)
      · obtain ⟨x, -, hx⟩ := bind_eq_ok hsettle
        cases hx
        exact fault_of_step_settled hstep

theorem fault_of_finish {state : State} {fault : Fault} (h : finish limit state = .error fault) :
    fault = .tooDeep limit ∨ fault = .unexpectedEnd ∨ fault = .missingToken .rparen none := by
  cases state with
  | due level outer => exact Or.inr (Or.inl (Except.error.inj h).symm)
  | read depth sum product outer =>
    rcases bind_eq_error h with hjoin | ⟨_, -, hend⟩
    · exact Or.inl (fault_of_join hjoin)
    · cases outer with
      | nil => cases hend
      | cons level outer => exact Or.inr (Or.inr (Except.error.inj hend).symm)

end Parser

namespace Expr
open Minterm.Parser

/-- A fault names the first token that no sentence continues with, or says that the tokens are only the beginning
    of one. The tokens before the fault begin some sentence in either case. -/
theorem faults_stand_at_the_first_impossible_token {limit : Nat} {tokens : List Token} {fault : Fault}
    (hlimit : tokens.length + 1 ≤ limit) (h : ofTokens limit tokens = .error fault) :
    (∃ k token, tokens[k]? = some token ∧ Refuses token fault ∧ Begins (tokens.take k) ∧ ¬Begins (tokens.take (k + 1))) ∨
      (fault = .unexpectedEnd ∨ fault = .missingToken .rparen none) ∧
        (∃ rest, rest ≠ [] ∧ Sentence (tokens ++ rest)) ∧ ¬Sentence tokens := by
  have hdeep : fault ≠ .tooDeep limit := fun heq => ofTokens_ne_tooDeep hlimit limit (heq ▸ h)
  rcases bind_eq_error h with hrun | ⟨state, hrun, hfinish⟩
  · obtain ⟨k, token, next, hk, hnext, hstep⟩ := fault_of_run hrun
    refine Or.inl ⟨k, token, hk, (fault_of_step hstep).resolve_left hdeep, ?_, ?_⟩
    · exact begins_of_after (after_run after_start hnext)
    · refine not_begins_of_fault ?_ hdeep
      rw [List.take_add_one, hk, run_append, hnext]
      show run limit next [token] = .error fault
      rw [run_cons, hstep]
      rfl
  · obtain ⟨rest, hsentence⟩ := begins_of_after (after_run after_start hrun)
    have hnone : ¬Sentence tokens := by
      rintro ⟨e, he⟩
      rw [ofTokens_of_derives he (by omega)] at h
      cases h
    refine Or.inr ⟨(fault_of_finish hfinish).resolve_left hdeep, ⟨rest, ?_, hsentence⟩, hnone⟩
    rintro rfl
    exact hnone (by simpa using hsentence)

/-- Two operands side by side inside a parenthesis: up to the second one there is a sentence that begins so. -/
theorem faults_stand_at_the_first_impossible_token_inside :
    let tokens : List Token := [.lparen, .ident "a", .ident "b", .rparen]
    let fault : Fault := .missingToken .rparen (some (.ident "b"))
    tokens.length + 1 ≤ 5 ∧ ofTokens 5 tokens = .error fault ∧
      Begins [.lparen, .ident "a"] ∧ ¬Begins [.lparen, .ident "a", .ident "b"] := by
  intro tokens fault
  have hfault : ofTokens 5 tokens = .error fault := rfl
  refine ⟨by decide, hfault, ?_⟩
  rcases faults_stand_at_the_first_impossible_token (by decide) hfault with ⟨k, token, hk, hrefuses, hbegins, hstops⟩ | hend
  · obtain rfl : token = .ident "b" := by simpa [Refuses, fault, eq_comm] using hrefuses
    obtain rfl : k = 2 := by
      rcases k with _ | _ | _ | _ | k <;> simp [tokens] at hk ⊢
    exact ⟨hbegins, hstops⟩
  · simp [fault] at hend

end Expr
end Minterm
