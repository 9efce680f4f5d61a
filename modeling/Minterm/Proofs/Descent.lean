import Minterm.Proofs.ReaderHeights

/-! Reading by recursive descent, with one call for each phrase of the grammar. The reader keeps on its stack of
    levels what recursive descent keeps in its calls. Both read the same trees and meet the same faults
    (`result_descent`): at every place where a phrase may begin, the reader goes on as descent does with the
    phrase and with what follows it (`Phrase.Follows`).

    A descent records its calls, each with the number of parentheses and negations around it, and its answers,
    each with the height that goes with its tree; the events stand also where the descent fails. -/

namespace Minterm
namespace Parser

variable {limit : Nat} {ts us : List Token}

/-! ### Recorded computations -/

/-- What happens in the course of a descent. -/
inductive Event where
  /-- A phrase is called for below so many parentheses and negations. -/
  | call (phrase : Phrase) (depth : Nat)
  /-- The call succeeds. -/
  | answer (phrase : Phrase) (depth : Nat) (x : Operand)
  deriving DecidableEq, Repr

/-- A computation that may fail, with the events up to its end. -/
structure Recorded (α : Type) where
  events : List Event
  result : Except Fault α

namespace Recorded

variable {α β : Type}

instance : Monad Recorded where
  pure a := ⟨[], .ok a⟩
  bind x f :=
    match x.result with
    | .ok a => ⟨x.events ++ (f a).events, (f a).result⟩
    | .error fault => ⟨x.events, .error fault⟩

def emit (event : Event) : Recorded Unit := ⟨[event], .ok ()⟩

/-- A computation without events. -/
def ofExcept (x : Except Fault α) : Recorded α := ⟨[], x⟩

theorem result_bind (x : Recorded α) (f : α → Recorded β) : (x >>= f).result = x.result >>= fun a => (f a).result := by
  obtain ⟨events, _ | a⟩ := x <;> rfl

end Recorded

/-! ### Recursive descent -/

/-- The tokens behind a phrase: a chain has ended only where its connective does not follow. -/
def Phrase.Ends : Phrase → List Token → Prop
  | .sum, rest => rest.head? ≠ some .amp ∧ rest.head? ≠ some .bar
  | .product, rest => rest.head? ≠ some .amp
  | .unary, _ | .primary, _ => True

/-- A phrase at the head of the tokens, as it has been read. -/
structure Front (phrase : Phrase) (ts : List Token) where
  operand : Operand
  rest : List Token
  shorter : rest.length < ts.length
  ends : phrase.Ends rest

/-- The two kinds of chain. -/
inductive Chain where
  | sum
  | product
  deriving DecidableEq, Repr

namespace Chain

abbrev phrase : Chain → Phrase
  | .sum => .sum
  | .product => .product

/-- The phrases that the chain connects. -/
abbrev inner : Chain → Phrase
  | .sum => .product
  | .product => .unary

def connective : Chain → Token
  | .sum => .bar
  | .product => .amp

def connect : Chain → Expr → Expr → Expr
  | .sum => .or
  | .product => .and

theorem ends {chain : Chain} {rest : List Token} (hinner : chain.inner.Ends rest)
    (hhead : rest.head? ≠ some chain.connective) : chain.phrase.Ends rest := by
  cases chain with
  | sum => exact ⟨hinner, hhead⟩
  | product => exact hhead

theorem height_connect (chain : Chain) (a b : Expr) : (chain.connect a b).height = max a.height b.height + 1 := by
  cases chain <;> rfl

end Chain

namespace Front

/-- The chain, where its connective does not follow. -/
def complete {chain : Chain} (left : Front chain.inner ts) (h : left.rest.head? ≠ some chain.connective) :
    Front chain.phrase ts :=
  ⟨left.operand, left.rest, left.shorter, Chain.ends left.ends h⟩

/-- The chain with one more operand, where its connective has followed. -/
def advance {phrase : Phrase} {token : Token} (left : Front phrase ts) (h : left.rest = token :: us)
    (right : Front phrase us) (x : Operand) : Front phrase ts where
  operand := x
  rest := right.rest
  shorter := by
    have hleft := left.shorter
    have hright := right.shorter
    rw [h, List.length_cons] at hleft
    omega
  ends := right.ends

def negate (x : Front .unary us) : Front .unary (.bang :: us) :=
  ⟨⟨.not x.operand.expr, x.operand.height + 1⟩, x.rest, Nat.lt_succ_of_lt x.shorter, trivial⟩

/-- A constant or a variable. -/
def name : (ts : List Token) → Except Fault (Front .primary ts)
  | .ident name :: us => .ok ⟨⟨leaf name, 1⟩, us, Nat.lt_succ_self _, trivial⟩
  | token :: _ => .error (.unexpectedToken token)
  | [] => .error .unexpectedEnd

def unary (x : Front .primary ts) : Front .unary ts := ⟨x.operand, x.rest, x.shorter, trivial⟩

/-- Expects the closing parenthesis behind a sum. -/
def close (x : Front .sum us) : Except Fault (Front .primary (.lparen :: us)) :=
  match h : x.rest with
  | .rparen :: rest =>
    have shorter : rest.length < us.length + 1 := by
      have hx := x.shorter
      rw [h, List.length_cons] at hx
      omega
    .ok ⟨x.operand, rest, shorter, trivial⟩
  | rest => .error (.missingToken .rparen rest.head?)

end Front

/-- The loosest phrase has the highest rank; a phrase may begin with one of lower rank. -/
def Phrase.rank : Phrase → Nat
  | .sum => 3
  | .product => 2
  | .unary => 1
  | .primary => 0

open Recorded (emit ofExcept)

/-- Records the call of a phrase, and its answer. -/
def recorded {phrase : Phrase} (depth : Nat) (body : Recorded (Front phrase ts)) : Recorded (Front phrase ts) := do
  emit (.call phrase depth)
  let front ← body
  emit (.answer phrase depth front.operand)
  return front

mutual

/-- Reads a phrase below `depth` parentheses and negations. -/
def descend (limit : Nat) (phrase : Phrase) (depth : Nat) (ts : List Token) : Recorded (Front phrase ts) :=
  recorded depth <|
    match phrase, ts with
    | .sum, ts => do
      let left ← descend limit .product depth ts
      extend limit .sum depth left
    | .product, ts => do
      let left ← descend limit .unary depth ts
      extend limit .product depth left
    | .unary, .bang :: us => do
      ofExcept (guardHeight limit (depth + 1) 1)
      let x ← descend limit .unary (depth + 1) us
      return x.negate
    | .unary, ts => do
      let x ← descend limit .primary depth ts
      return x.unary
    | .primary, .lparen :: us => do
      ofExcept (guardHeight limit (depth + 1) 1)
      let x ← descend limit .sum (depth + 1) us
      ofExcept x.close
    | .primary, ts => ofExcept (Front.name ts)
termination_by (ts.length, phrase.rank)
-- A phrase calls for one of lower rank at the same tokens, or for any phrase behind a token of its own.
decreasing_by
  · exact .right _ (by decide)
  · exact .left _ _ left.shorter
  · exact .right _ (by decide)
  · exact .left _ _ left.shorter
  · exact .left _ _ (Nat.lt_succ_self _)
  · exact .right _ (by decide)
  · exact .left _ _ (Nat.lt_succ_self _)

/-- Extends a chain as long as its connective follows. -/
def extend (limit : Nat) (chain : Chain) (depth : Nat) {ts : List Token} (left : Front chain.inner ts) :
    Recorded (Front chain.phrase ts) :=
  match h : left.rest with
  | [] => return left.complete (h ▸ nofun)
  | token :: us =>
    if htoken : token = chain.connective then do
      let right ← descend limit chain.inner depth us
      let x ← ofExcept (join limit depth chain.connect (some left.operand) right.operand)
      extend limit chain depth (left.advance h right x)
    else return left.complete (h ▸ fun hhead => htoken (Option.some.inj hhead))
termination_by (left.rest.length, 0)
decreasing_by
  · exact .left _ _ (h ▸ Nat.lt_succ_self us.length)
  · exact .left _ _ (h ▸ Nat.lt_succ_of_lt right.shorter)

end

/-- Reads all tokens as one sum. -/
def descent (limit : Nat) (tokens : List Token) : Recorded Expr := do
  let x ← descend limit .sum 0 tokens
  match x.rest with
  | [] => return x.operand.expr
  | token :: _ => ofExcept (.error (.trailingToken token))

theorem descend_unary {depth : Nat} (h : ∀ us, ts ≠ .bang :: us) :
    descend limit .unary depth ts =
      recorded depth (do let x ← descend limit .primary depth ts
                         return x.unary) := by
  rw [descend]
  exact h

theorem descend_primary {depth : Nat} (h : ∀ us, ts ≠ .lparen :: us) :
    descend limit .primary depth ts = recorded depth (ofExcept (Front.name ts)) := by
  rw [descend]
  exact h

theorem result_recorded {phrase : Phrase} (depth : Nat) (body : Recorded (Front phrase ts)) :
    (recorded depth body).result = body.result := by
  obtain ⟨events, _ | front⟩ := body <;> rfl

theorem extend_complete {chain : Chain} {depth : Nat} {left : Front chain.inner ts}
    (h : left.rest.head? ≠ some chain.connective) : extend limit chain depth left = pure (left.complete h) := by
  rw [extend]
  split
  · rfl
  · rename_i token us hrest
    have htoken : token ≠ chain.connective := fun heq => h (heq ▸ hrest ▸ rfl)
    rw [dif_neg htoken]

theorem extend_cons {chain : Chain} {depth : Nat} {left : Front chain.inner ts}
    (h : left.rest = chain.connective :: us) :
    extend limit chain depth left =
      (do let right ← descend limit chain.inner depth us
          let x ← ofExcept (join limit depth chain.connect (some left.operand) right.operand)
          extend limit chain depth (left.advance h right x)) := by
  rw [extend]
  split
  · rename_i hrest
    cases hrest.symm.trans h
  · rename_i hrest
    cases hrest.symm.trans h
    rw [dif_pos rfl]

/-- Induction over a descent, with one case for each way on: `M` is shown of all calls, and `N` of all places in a
    chain. -/
theorem descend_induction {M : Phrase → Nat → List Token → Prop}
    {N : ∀ chain, Nat → ∀ ts, Front (Chain.inner chain) ts → Prop}
    (sum : ∀ depth ts, M .product depth ts → (∀ left, N .sum depth ts left) → M .sum depth ts)
    (product : ∀ depth ts, M .unary depth ts → (∀ left, N .product depth ts left) → M .product depth ts)
    (bang : ∀ depth us, M .unary (depth + 1) us → M .unary depth (.bang :: us))
    (unary : ∀ depth ts, (∀ us, ts ≠ .bang :: us) → M .primary depth ts → M .unary depth ts)
    (lparen : ∀ depth us, M .sum (depth + 1) us → M .primary depth (.lparen :: us))
    (primary : ∀ depth ts, (∀ us, ts ≠ .lparen :: us) → M .primary depth ts)
    (complete : ∀ chain depth ts left, left.rest.head? ≠ some chain.connective → N chain depth ts left)
    (connective : ∀ chain depth ts us left (h : left.rest = chain.connective :: us), M chain.inner depth us →
      (∀ right x, N chain depth ts (left.advance h right x)) → N chain depth ts left)
    (phrase : Phrase) (depth : Nat) (ts : List Token) : M phrase depth ts := by
  refine (descend.mutual_induct M N ?_ ?_ (fun _ _ _ _ _ h => connective _ _ _ _ _ h) ?_).1 phrase depth ts
  · intro phrase depth ts ih
    split at ih
    · exact sum _ _ ih.1 ih.2
    · exact product _ _ ih.1 ih.2
    · exact bang _ _ ih
    · rename_i hbang
      exact unary _ _ hbang ih
    · exact lparen _ _ ih
    · rename_i hlparen
      exact primary _ _ hlparen
  · intro chain depth ts left h
    exact complete _ _ _ _ (h ▸ nofun)
  · intro chain depth ts left token us h htoken
    exact complete _ _ _ _ (h ▸ fun hhead => htoken (Option.some.inj hhead))

/-! ### Descent and the reader -/

/-- Reads on from a state to the end of the tokens. -/
def readOn (limit : Nat) (state : State) (ts : List Token) : Except Fault Expr := do
  let last ← run limit state ts
  finish limit last

theorem readOn_cons (state : State) (token : Token) (ts : List Token) :
    readOn limit state (token :: ts) = step limit state token >>= fun next => readOn limit next ts := by
  unfold readOn
  rw [run_cons, bind_assoc]

theorem readOn_settle (state : State) (h : ts.head? ≠ some .amp) :
    readOn limit state ts = settle limit state >>= fun next => readOn limit next ts := by
  cases ts with
  | nil => exact finish_settle state
  | cons token ts =>
    rw [readOn_cons, step_settle state (fun htoken => h (congrArg some htoken)), bind_assoc]
    exact bind_congr fun next => (readOn_cons next token ts).symm

/-- The states in which the reader begins a phrase, each with the state that the operand leads to. A name or a
    parenthesis is the next operand only where no negation precedes it. -/
inductive Starts (limit : Nat) (ts : List Token) : Phrase → Nat → State → (Operand → Except Fault State) → Prop
  | sum (depth : Nat) (outer : List Level) :
    Starts limit ts .sum depth (.due ⟨depth, none, none, 0⟩ outer) fun x => .ok (.read depth none x outer)
  | product (depth : Nat) (sum : Option Operand) (outer : List Level) :
    Starts limit ts .product depth (.due ⟨depth, sum, none, 0⟩ outer) fun x => .ok (.read depth sum x outer)
  | unary (level : Level) (outer : List Level) :
    Starts limit ts .unary (level.depth + level.bangs) (.due level outer) (level.accept limit outer)
  | primary (level : Level) (outer : List Level) (h : ts.head? ≠ some .bang) :
    Starts limit ts .primary (level.depth + level.bangs) (.due level outer) (level.accept limit outer)

/-- Reads on behind a phrase. -/
def Front.readOn {phrase : Phrase} (limit : Nat) (next : Operand → Except Fault State) (x : Front phrase ts) :
    Except Fault Expr := do
  let state ← next x.operand
  Parser.readOn limit state x.rest

/-- The reader reads a phrase as descent does. -/
def Phrase.Follows (limit : Nat) (phrase : Phrase) (depth : Nat) (ts : List Token) : Prop :=
  ∀ state next, Starts limit ts phrase depth state next →
    readOn limit state ts = (descend limit phrase depth ts).result >>= Front.readOn limit next

/-- The reader extends a chain as descent does. -/
def Chain.Follows (limit : Nat) (chain : Chain) (depth : Nat) (left : Front chain.inner ts) : Prop :=
  ∀ state next, Starts limit ts chain.phrase depth state next →
    left.readOn limit next = (extend limit chain depth left).result >>= Front.readOn limit next

theorem follows_sum {depth : Nat} (hproduct : Phrase.product.Follows limit depth ts)
    (hextend : ∀ left : Front .product ts, Chain.sum.Follows limit depth left) : Phrase.sum.Follows limit depth ts := by
  intro state next h
  cases h with
  | sum _ outer =>
    rw [descend, result_recorded, Recorded.result_bind, bind_assoc]
    have hread := hproduct _ _ (.product depth none outer)
    exact hread.trans (bind_congr fun left => hextend left _ _ (.sum depth outer))

theorem follows_product {depth : Nat} (hunary : Phrase.unary.Follows limit depth ts)
    (hextend : ∀ left : Front .unary ts, Chain.product.Follows limit depth left) :
    Phrase.product.Follows limit depth ts := by
  intro state next h
  cases h with
  | product _ sum outer =>
    rw [descend, result_recorded, Recorded.result_bind, bind_assoc]
    have hread := hunary _ _ (.unary ⟨depth, sum, none, 0⟩ outer)
    exact hread.trans (bind_congr fun left => hextend left _ _ (.product depth sum outer))

theorem follows_bang {depth : Nat} (hunary : Phrase.unary.Follows limit (depth + 1) us) :
    Phrase.unary.Follows limit depth (.bang :: us) := by
  intro state next h
  cases h with
  | unary level outer =>
    rw [readOn_cons, step, descend, result_recorded, Recorded.result_bind, bind_assoc, bind_assoc]
    refine bind_congr fun _ => ?_
    rw [Recorded.result_bind, bind_assoc]
    exact hunary _ _ (.unary { level with bangs := level.bangs + 1 } outer)

theorem follows_unary {depth : Nat} (hts : ∀ us, ts ≠ .bang :: us) (hprimary : Phrase.primary.Follows limit depth ts) :
    Phrase.unary.Follows limit depth ts := by
  intro state next h
  cases h with
  | unary level outer =>
    rw [descend_unary hts, result_recorded, Recorded.result_bind, bind_assoc]
    exact hprimary _ _ (.primary level outer fun h => hts _ (List.eq_cons_of_mem_head? h))

theorem readOn_close (x : Front .sum us) (depth : Nat) (level : Level) (outer : List Level) :
    readOn limit (.read depth none x.operand (level :: outer)) x.rest =
      x.close >>= Front.readOn limit (level.accept limit outer) := by
  obtain ⟨operand, rest, shorter, hamp, hbar⟩ := x
  cases rest with
  | nil => rfl
  | cons token rest =>
    rw [readOn_cons]
    cases token with
    | amp => exact absurd rfl hamp
    | bar => exact absurd rfl hbar
    | _ => rfl

theorem follows_lparen {depth : Nat} (hsum : Phrase.sum.Follows limit (depth + 1) us) :
    Phrase.primary.Follows limit depth (.lparen :: us) := by
  intro state next h
  cases h with
  | primary level outer =>
    rw [readOn_cons, step, descend, result_recorded, Recorded.result_bind, bind_assoc, bind_assoc]
    refine bind_congr fun _ => ?_
    rw [Recorded.result_bind, bind_assoc]
    have hread := hsum _ _ (.sum _ (level :: outer))
    exact hread.trans (bind_congr fun x => readOn_close x _ level outer)

theorem follows_primary {depth : Nat} (hts : ∀ us, ts ≠ .lparen :: us) : Phrase.primary.Follows limit depth ts := by
  intro state next h
  cases h with
  | primary level outer hbang =>
    rw [descend_primary hts, result_recorded]
    cases ts with
    | nil => rfl
    | cons token us =>
      rw [readOn_cons]
      cases token with
      | lparen => exact absurd rfl (hts us)
      | bang => exact absurd rfl hbang
      | _ => rfl

theorem follows_extend {chain : Chain} {depth : Nat} {left : Front chain.inner ts}
    (hrest : left.rest = chain.connective :: us) (hinner : chain.inner.Follows limit depth us)
    (hextend : ∀ right x, chain.Follows limit depth (left.advance hrest right x)) : chain.Follows limit depth left := by
  intro state next h
  rw [extend_cons hrest, Recorded.result_bind, bind_assoc, Front.readOn, hrest]
  cases chain with
  | sum =>
    cases h with
    | sum _ outer =>
      refine (hinner _ _ (.product depth (some left.operand) outer)).trans (bind_congr fun right => ?_)
      rw [Recorded.result_bind, bind_assoc]
      -- No `&` follows the product on the right, so the reader's join, which waits for the next token, may come first.
      refine (readOn_settle _ right.ends).trans ?_
      rw [settle, bind_assoc]
      exact bind_congr fun x => hextend right x _ _ (.sum depth outer)
  | product =>
    cases h with
    | product _ sum outer =>
      refine (hinner _ _ (.unary ⟨depth, sum, some left.operand, 0⟩ outer)).trans (bind_congr fun right => ?_)
      rw [Recorded.result_bind, bind_assoc, Front.readOn, Level.accept, bind_assoc]
      exact bind_congr fun x => hextend right x _ _ (.product depth sum outer)

theorem follows_complete {chain : Chain} {depth : Nat} {left : Front chain.inner ts}
    (hrest : left.rest.head? ≠ some chain.connective) : chain.Follows limit depth left := by
  intro state next h
  rw [extend_complete hrest]
  rfl

theorem follows_descend (limit : Nat) (phrase : Phrase) (depth : Nat) (ts : List Token) :
    phrase.Follows limit depth ts :=
  descend_induction (N := fun chain depth _ left => chain.Follows limit depth left)
    (fun _ _ => follows_sum) (fun _ _ => follows_product) (fun _ _ => follows_bang) (fun _ _ => follows_unary)
    (fun _ _ => follows_lparen) (fun _ _ => follows_primary) (fun _ _ _ _ => follows_complete)
    (fun _ _ _ _ _ => follows_extend) phrase depth ts

theorem readOn_end (x : Front .sum ts) (depth : Nat) :
    readOn limit (.read depth none x.operand []) x.rest =
      match x.rest with
      | [] => .ok x.operand.expr
      | token :: _ => .error (.trailingToken token) := by
  obtain ⟨operand, rest, shorter, hamp, hbar⟩ := x
  cases rest with
  | nil => rfl
  | cons token rest =>
    rw [readOn_cons]
    cases token with
    | amp => exact absurd rfl hamp
    | bar => exact absurd rfl hbar
    | _ => rfl

/-- Descent and the reader have the same result. -/
theorem result_descent (limit : Nat) (tokens : List Token) :
    (descent limit tokens).result = Expr.ofTokens limit tokens := by
  have hread := follows_descend limit .sum 0 tokens _ _ (.sum 0 [])
  rw [descent, Recorded.result_bind]
  refine Eq.trans (bind_congr fun x => ?_) hread.symm
  refine Eq.trans ?_ (readOn_end x 0).symm
  split <;> rfl

end Parser
end Minterm
