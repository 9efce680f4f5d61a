import Minterm.Expr.Parser
import Minterm.Proofs.Lists

/-! Reading a phrase: a run of the reader over the tokens of an operand, of a chain of `&` or of a chain of
    `|`, wherever the phrase may stand. A phrase that is nested `nesting` levels deep is read if and only
    if the limit leaves room for these levels, and the reader then holds its tree. There is one lemma
    for each way to build a phrase. The reader joins the last operand of a chain of `|` only when the
    next token is known; `settle` makes that join at once, so that a finished chain has one state. -/

namespace Minterm
namespace Parser

variable {limit : Nat}

/-! ### The guard -/

theorem guardHeight_of_le {depth height : Nat} (h : depth + height ≤ limit) : guardHeight limit depth height = .ok () :=
  if_pos h

theorem guardHeight_of_lt {depth height : Nat} (h : limit < depth + height) :
    guardHeight limit depth height = .error (.tooDeep limit) :=
  if_neg (Nat.not_le.mpr h)

theorem le_of_guardHeight {depth height : Nat} {u : Unit} (h : guardHeight limit depth height = .ok u) :
    depth + height ≤ limit := by
  by_contra hlimit
  rw [guardHeight_of_lt (Nat.not_le.mp hlimit)] at h
  cases h

theorem guardHeight_add (depth n height : Nat) : guardHeight limit (depth + n) height = guardHeight limit depth (height + n) := by
  unfold guardHeight
  rw [Nat.add_assoc, Nat.add_comm n height]

/-- What follows a guard may take its bound for granted. -/
theorem guardHeight_congr {α : Type} {depth height : Nat} {x y : Except Fault α} (h : depth + height ≤ limit → x = y) :
    (do guardHeight limit depth height; x) = (do guardHeight limit depth height; y) := by
  by_cases hle : depth + height ≤ limit
  · rw [h hle]
  · rw [guardHeight_of_lt (Nat.not_le.mp hle)]
    rfl

/-- Two guards at one depth are the guard of the larger height. -/
theorem guardHeight_guardHeight {α : Type} (depth height other : Nat) (x : Except Fault α) :
    (do guardHeight limit depth height; guardHeight limit depth other; x) =
      (do guardHeight limit depth (max height other); x) := by
  by_cases hle : depth + height ≤ limit
  · by_cases hother : depth + other ≤ limit
    · rw [guardHeight_of_le hle, guardHeight_of_le hother, guardHeight_of_le (by omega)]
      rfl
    · rw [guardHeight_of_le hle, guardHeight_of_lt (Nat.not_le.mp hother), guardHeight_of_lt (by omega)]
      rfl
  · have hmax : limit < depth + max height other := by omega
    rw [guardHeight_of_lt (Nat.not_le.mp hle), guardHeight_of_lt hmax]
    rfl

/-- What a guard lets through. -/
theorem eq_ok_of_guardHeight {α : Type} {depth height : Nat} {x : Except Fault α} {a : α}
    (h : (do guardHeight limit depth height; x) = .ok a) : x = .ok a := by
  by_cases hle : depth + height ≤ limit
  · rw [guardHeight_of_le hle] at h
    exact h
  · rw [guardHeight_of_lt (Nat.not_le.mp hle)] at h
    cases h

/-! ### Steps -/

theorem run_cons (state : State) (token : Token) (tokens : List Token) :
    run limit state (token :: tokens) = step limit state token >>= fun next => run limit next tokens :=
  List.foldlM_cons

theorem run_append (state : State) (ts us : List Token) :
    run limit state (ts ++ us) = run limit state ts >>= fun next => run limit next us :=
  List.foldlM_append

/-- What every step keeps, with the tokens read so far in view, is kept by a run. -/
theorem run_invariant {P : List Token → State → Prop} (ts : List Token) {us : List Token} {state last : State}
    (hstep : ∀ {ts state token next}, P ts state → token ∈ us → step limit state token = .ok next → P (ts ++ [token]) next)
    (hstate : P ts state) (h : run limit state us = .ok last) : P (ts ++ us) last := by
  induction us generalizing ts state with
  | nil =>
    cases h
    rwa [List.append_nil]
  | cons token us ih =>
    rw [run_cons] at h
    obtain ⟨middle, hmiddle, hrest⟩ := bind_eq_ok h
    rw [List.append_cons]
    exact ih _ (fun hs ht => hstep hs (List.mem_cons_of_mem _ ht)) (hstep hstate List.mem_cons_self hmiddle) hrest

/-- A run that fails has come as far as the token at which it fails. -/
theorem fault_of_run {ts : List Token} {state : State} {fault : Fault} (h : run limit state ts = .error fault) :
    ∃ k token next, ts[k]? = some token ∧ run limit state (ts.take k) = .ok next ∧ step limit next token = .error fault := by
  induction ts generalizing state with
  | nil => cases h
  | cons token ts ih =>
    rw [run_cons] at h
    rcases bind_eq_error h with hstep | ⟨middle, hmiddle, hrest⟩
    · exact ⟨0, token, state, rfl, rfl, hstep⟩
    · obtain ⟨k, found, next, hk, hnext, hfault⟩ := ih hrest
      refine ⟨k + 1, found, next, hk, ?_, hfault⟩
      rw [List.take_succ_cons, run_cons, hmiddle]
      exact hnext

theorem join_some (depth : Nat) (connect : Expr → Expr → Expr) (left right : Operand) :
    join limit depth connect (some left) right =
      (do guardHeight limit depth (max left.height right.height + 1)
          return ⟨connect left.expr right.expr, max left.height right.height + 1⟩) := rfl

theorem accept_some (depth : Nat) (sum : Option Operand) (left right : Operand) (outer : List Level) :
    Level.accept limit ⟨depth, sum, some left, 0⟩ outer right =
      (do guardHeight limit depth (max left.height right.height + 1)
          return .read depth sum ⟨.and left.expr right.expr, max left.height right.height + 1⟩ outer) := by
  rw [Level.accept, Operand.negate, join_some, bind_assoc]
  rfl

/-- Joins the operands of a finished sum. -/
def settle (limit : Nat) : State → Except Fault State
  | .due level outer => .ok (.due level outer)
  | .read depth sum product outer => do
    let sum ← join limit depth .or sum product
    return .read depth none sum outer

/-- Every token but `&` finishes the sum before it. -/
theorem step_settle (state : State) {token : Token} (h : token ≠ .amp) :
    step limit state token = settle limit state >>= fun next => step limit next token := by
  cases state with
  | due level outer => rfl
  | read depth sum product outer =>
    cases token with
    | amp => exact absurd rfl h
    | _ =>
      simp only [step, settle, bind_assoc, pure_bind]
      rfl

theorem run_settle (state : State) (ts us : List Token) {token : Token} (h : token ≠ .amp) :
    run limit state (ts ++ token :: us) =
      (run limit state ts >>= fun next => settle limit next) >>= fun next => run limit next (token :: us) := by
  rw [run_append, bind_assoc]
  refine bind_congr fun next => ?_
  rw [run_cons, step_settle next h, bind_assoc]
  exact bind_congr fun settled => (run_cons settled token us).symm

theorem finish_settle (state : State) :
    finish limit state = settle limit state >>= fun next => finish limit next := by
  cases state with
  | due level outer => rfl
  | read depth sum product outer =>
    simp only [finish, settle, bind_assoc, pure_bind]
    rfl

/-! ### Phrases -/

/-- An operand is read at any level. -/
def ReadsUnit (limit : Nat) (tokens : List Token) (nesting : Nat) (e : Expr) : Prop :=
  ∀ level outer, level.depth + level.bangs < limit →
    run limit (.due level outer) tokens = do
      guardHeight limit (level.depth + level.bangs) nesting
      level.accept limit outer ⟨e, e.height⟩

/-- A chain of `&` is read where a product starts. -/
def ReadsProduct (limit : Nat) (tokens : List Token) (nesting : Nat) (e : Expr) : Prop :=
  ∀ depth sum outer, depth < limit →
    run limit (.due ⟨depth, sum, none, 0⟩ outer) tokens = do
      guardHeight limit depth nesting
      return .read depth sum ⟨e, e.height⟩ outer

/-- A chain of `|` is read where a sum starts. -/
def ReadsSum (limit : Nat) (tokens : List Token) (nesting : Nat) (e : Expr) : Prop :=
  ∀ depth outer, depth < limit →
    (run limit (.due ⟨depth, none, none, 0⟩ outer) tokens >>= fun state => settle limit state) = do
      guardHeight limit depth nesting
      return .read depth none ⟨e, e.height⟩ outer

variable {ts us : List Token} {m n : Nat} {a b e x : Expr}

theorem ReadsUnit.product (h : ReadsUnit limit ts n e) : ReadsProduct limit ts n e :=
  fun depth sum outer hdepth => h ⟨depth, sum, none, 0⟩ outer hdepth

theorem ReadsProduct.sum (h : ReadsProduct limit ts n e) : ReadsSum limit ts n e := by
  intro depth outer hdepth
  rw [h depth none outer hdepth, bind_assoc]
  rfl

theorem readsUnit_leaf {name : String} (hleaf : leaf name = e) (hheight : e.height = 1) :
    ReadsUnit limit [.ident name] 1 e := by
  intro level outer hlevel
  rw [hheight, guardHeight_of_le hlevel, run_cons, step, hleaf]
  exact bind_pure _

/-- A sum in parentheses is an operand, one level deeper. -/
theorem ReadsSum.parenthesized (h : ReadsSum limit ts n e) (hpos : 1 ≤ n) :
    ReadsUnit limit (.lparen :: ts ++ [.rparen]) (n + 1) e := by
  intro level outer _
  have hinner : level.depth + level.bangs + 1 < limit →
      run limit (.due ⟨level.depth + level.bangs + 1, none, none, 0⟩ (level :: outer)) (ts ++ [.rparen]) =
        (do guardHeight limit (level.depth + level.bangs) (n + 1)
            level.accept limit outer ⟨e, e.height⟩) := by
    intro hdepth
    rw [run_settle _ _ _ (by decide), h _ _ hdepth, guardHeight_add, bind_assoc]
    refine bind_congr fun _ => ?_
    rw [pure_bind, run_cons]
    exact bind_pure _
  rw [List.cons_append, run_cons, step, bind_assoc]
  refine (guardHeight_congr fun hle => hinner (by omega)).trans ?_
  rw [guardHeight_add, guardHeight_guardHeight, Nat.max_eq_right (by omega)]

theorem ReadsUnit.not (h : ReadsUnit limit ts n x) (hpos : 1 ≤ n) : ReadsUnit limit (.bang :: ts) (n + 1) (.not x) := by
  intro level outer _
  have hoperand : level.depth + level.bangs + 1 + 1 ≤ limit →
      run limit (.due { level with bangs := level.bangs + 1 } outer) ts =
        (do guardHeight limit (level.depth + level.bangs) (n + 1)
            level.accept limit outer ⟨.not x, x.height + 1⟩) := by
    intro hle
    have hdeeper : level.depth + (level.bangs + 1) < limit := by omega
    rw [h { level with bangs := level.bangs + 1 } outer hdeeper, ← Nat.add_assoc, guardHeight_add]
    rfl
  rw [run_cons, step, bind_assoc]
  refine (guardHeight_congr hoperand).trans ?_
  rw [guardHeight_add, guardHeight_guardHeight, Nat.max_eq_right (by omega)]
  rfl

theorem ReadsProduct.and (ha : ReadsProduct limit ts m a) (hb : ReadsUnit limit us n b) :
    ReadsProduct limit (ts ++ .amp :: us) (max (max m n) (max a.height b.height + 1)) (.and a b) := by
  intro depth sum outer hdepth
  have hright : run limit (.due ⟨depth, sum, some ⟨a, a.height⟩, 0⟩ outer) us =
      (do guardHeight limit depth (max n (max a.height b.height + 1))
          return .read depth sum ⟨.and a b, (Expr.and a b).height⟩ outer) := by
    rw [hb ⟨depth, sum, some ⟨a, a.height⟩, 0⟩ outer hdepth, accept_some, ← guardHeight_guardHeight]
    rfl
  rw [run_append, ha depth sum outer hdepth, bind_assoc, Nat.max_assoc, ← guardHeight_guardHeight]
  refine bind_congr fun _ => ?_
  rw [pure_bind, run_cons]
  exact hright

theorem ReadsSum.or (ha : ReadsSum limit ts m a) (hb : ReadsProduct limit us n b) :
    ReadsSum limit (ts ++ .bar :: us) (max (max m n) (max a.height b.height + 1)) (.or a b) := by
  intro depth outer hdepth
  have hright : (run limit (.due ⟨depth, some ⟨a, a.height⟩, none, 0⟩ outer) us >>= fun state => settle limit state) =
      (do guardHeight limit depth (max n (max a.height b.height + 1))
          return .read depth none ⟨.or a b, (Expr.or a b).height⟩ outer) := by
    rw [hb depth _ outer hdepth, ← guardHeight_guardHeight, bind_assoc]
    refine bind_congr fun _ => ?_
    rw [pure_bind, settle, join_some, bind_assoc]
    rfl
  rw [run_settle _ _ _ (by decide), ha depth outer hdepth, bind_assoc, bind_assoc, Nat.max_assoc, ← guardHeight_guardHeight]
  refine bind_congr fun _ => ?_
  rw [pure_bind, run_cons]
  exact hright

/-- A sum that is the whole input is read as far as the limit allows. -/
theorem ReadsSum.ofTokens_eq (h : ReadsSum limit ts n e) (hlimit : 0 < limit) :
    Expr.ofTokens limit ts = if n ≤ limit then .ok e else .error (.tooDeep limit) := by
  have hread : Expr.ofTokens limit ts =
      (do guardHeight limit 0 n
          return e) := by
    rw [Expr.ofTokens, bind_congr fun state => finish_settle state, ← bind_assoc, start, h 0 [] hlimit, bind_assoc]
    rfl
  rw [hread]
  split
  · rename_i hle
    rw [guardHeight_of_le (by omega)]
    rfl
  · rename_i hlt
    rw [guardHeight_of_lt (by omega)]
    rfl

end Parser
end Minterm
