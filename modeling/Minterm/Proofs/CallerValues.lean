import Minterm.Proofs.BoundNames
import Minterm.Proofs.Lists
import Minterm.Proofs.CanonicalText

/-! Evaluating a text under the values of a caller. A name has one value however the bindings are ordered, and
    the mode of an answer hangs on the values alone; so the order of the bindings is never seen. Nor is
    simplification, as long as all variables are bound: the value is that of the expression as it was
    read. If some are not, the answer may hang on what simplification removes, but one pass removes as
    much as any number of them. -/

namespace Minterm

namespace Bindings
variable {α : Type} {bindings other : Bindings α}

/-! ### Truth values -/

/-- All values are Booleans or the bits `0` and `1`. -/
def Valid (bindings : Bindings Value) : Prop := ∀ v ∈ bindings.values, ∃ b, v.truth = .ok b

/-- The truth value that is bound to a name. -/
def truth? (bindings : Bindings Value) (name : String) : Option Bool :=
  (bindings.value? name).bind fun v => v.truth.toOption

theorem truth?_cons {name : String} {v : Value} {b : Bool} (h : v.truth = .ok b) (rest : Bindings Value) :
    truth? ((name, v) :: rest) = fun other => if other = name then some b else rest.truth? other := by
  funext other
  rw [truth?, value?_cons]
  split
  · rw [Option.bind_some, h]
    rfl
  · rfl

/-- Valid bindings have truth values, which are bound to the same names. -/
theorem Valid.exists_truths {bindings : Bindings Value} (h : bindings.Valid) :
    ∃ truths, Value.truths bindings.values = .ok truths ∧ value? (bindings.names.zip truths) = bindings.truth? := by
  induction bindings with
  | nil => exact ⟨[], rfl, rfl⟩
  | cons pair rest ih =>
    obtain ⟨name, v⟩ := pair
    obtain ⟨⟨b, hb⟩, hrest⟩ := List.forall_mem_cons.mp h
    obtain ⟨truths, htruths, hlookup⟩ := ih hrest
    refine ⟨b :: truths, ?_, ?_⟩
    · rw [Value.truths] at htruths ⊢
      rw [values, List.map_cons, List.mapM_cons, hb, ← values, htruths]
      rfl
    · rw [truth?_cons hb, ← hlookup]
      funext other
      exact value?_cons (name, b) _ other

theorem Valid.isSome_truth? {bindings : Bindings Value} (h : bindings.Valid) {name : String} (hname : name ∈ bindings.names) :
    (bindings.truth? name).isSome := by
  induction bindings with
  | nil => cases hname
  | cons pair rest ih =>
    obtain ⟨first, v⟩ := pair
    obtain ⟨⟨b, hb⟩, hrest⟩ := List.forall_mem_cons.mp h
    rw [truth?_cons hb]
    dsimp only
    split
    · rfl
    · rename_i hne
      exact ih hrest ((List.mem_cons.mp hname).resolve_left hne)

theorem values_perm (h : other.Perm bindings) : other.values.Perm bindings.values := h.map _

theorem Valid.perm {bindings other : Bindings Value} (h : bindings.Valid) (hperm : other.Perm bindings) : other.Valid :=
  fun v hv => h v ((values_perm hperm).mem_iff.mp hv)

theorem truth?_perm {bindings other : Bindings Value} (hnodup : bindings.names.Nodup) (h : other.Perm bindings) :
    other.truth? = bindings.truth? := by
  funext name
  rw [truth?, truth?, value?_perm hnodup h]

end Bindings

namespace Mode

theorem ofValues_eq_binary {values : List Value} :
    ofValues values = .binary ↔ values ≠ [] ∧ ∀ v ∈ values, v.isBit = true := by
  simp [ofValues]

theorem ofValues_perm {values other : List Value} (h : other.Perm values) : ofValues other = ofValues values := by
  rw [ofValues, ofValues, h.isEmpty_eq, h.all_eq]

end Mode

namespace Query
open Minterm.Expr
variable {text : String} {e : Expr} {bindings other : Bindings Value}

/-- The answer under valid values. -/
theorem evaluateWithin_of_valid (hread : ofText text = .ok e) (hvalid : bindings.Valid) (limit : Nat) :
    evaluateWithin limit text bindings =
      during .parsing (((simplifyWithin limit e).eval bindings.truth?).map (Mode.ofValues bindings.values).present) := by
  obtain ⟨truths, htruths, hlookup⟩ := hvalid.exists_truths
  rw [evaluateWithin, hread, ← hlookup]
  refine congrArg (during .parsing) ?_
  show (Value.truths bindings.values >>= _) = _
  rw [htruths]
  rfl

/-- The answer does not see the order of the bindings. -/
theorem evaluateWithin_perm (hread : ofText text = .ok e) (hvalid : bindings.Valid) (hnodup : bindings.names.Nodup)
    (h : other.Perm bindings) (limit : Nat) : evaluateWithin limit text other = evaluateWithin limit text bindings := by
  rw [evaluateWithin_of_valid hread hvalid, evaluateWithin_of_valid hread (hvalid.perm h), Bindings.truth?_perm hnodup h,
    Mode.ofValues_perm (Bindings.values_perm h)]

/-- Any number of passes but none gives the same answer. -/
theorem evaluateWithin_limit {limit limit' : Nat} (hlimit : 1 ≤ limit) (hlimit' : 1 ≤ limit') (text : String)
    (bindings : Bindings Value) : evaluateWithin limit text bindings = evaluateWithin limit' text bindings := by
  obtain ⟨fewer, rfl⟩ := Nat.exists_eq_add_of_le' hlimit
  obtain ⟨fewer', rfl⟩ := Nat.exists_eq_add_of_le' hlimit'
  simp only [evaluateWithin, simplifyWithin_succ]

/-- The answer is the value of the input itself if all its variables are bound. -/
theorem evaluateWithin_of_bound (hread : ofText text = .ok e) (hvalid : bindings.Valid)
    (hbound : ∀ name ∈ e.vars, name ∈ bindings.names) (limit : Nat) :
    ∃ b, e.eval bindings.truth? = .ok b ∧
      evaluateWithin limit text bindings = .ok ((Mode.ofValues bindings.values).present b) := by
  have heval := eval_of_bound fun name hn => hvalid.isSome_truth? (hbound name (mem_vars.mpr hn))
  refine ⟨_, heval, ?_⟩
  rw [evaluateWithin_of_valid hread hvalid, eval_simplifyWithin heval]
  rfl

/-- Under valid values there is a value, or a name without a binding. -/
theorem evaluateWithin_cases (hread : ofText text = .ok e) (hvalid : bindings.Valid) (limit : Nat) :
    (∃ v, evaluateWithin limit text bindings = .ok v) ∨
      ∃ name, evaluateWithin limit text bindings = .error (.during .parsing (.unbound name)) := by
  rw [evaluateWithin_of_valid hread hvalid]
  rcases (simplifyWithin limit e).eval_cases bindings.truth? with ⟨b, hb⟩ | ⟨name, hname⟩
  · rw [hb]
    exact .inl ⟨_, rfl⟩
  · rw [hname]
    exact .inr ⟨name, rfl⟩

/-- If all variables of an input are bound, to valid values, the answer is its value, in binary exactly if there are
    bindings and all of them are to bits, with any limit on the passes of simplification and any order of
    the bindings. Under any valid values all limits but zero have the same answer, a value or a name
    without a binding. -/
theorem evaluation_sees_no_simplification (hread : ofText text = .ok e) :
    (∀ (limit : Nat) (bindings : Bindings Value), bindings.names.Nodup → bindings.Valid →
      (∀ name ∈ e.vars, name ∈ bindings.names) →
      ∃ (mode : Mode) (b : Bool), e.eval bindings.truth? = .ok b ∧
        (mode = .binary ↔ bindings ≠ [] ∧ ∀ v ∈ bindings.values, v.isBit = true) ∧
        ∀ other, other.Perm bindings → evaluateWithin limit text other = .ok (mode.present b)) ∧
    ∀ (limit limit' : Nat) (bindings other : Bindings Value), 1 ≤ limit → 1 ≤ limit' → bindings.names.Nodup →
      bindings.Valid → other.Perm bindings →
      evaluateWithin limit' text other = evaluateWithin limit text bindings ∧
        ((∃ v, evaluateWithin limit text bindings = .ok v) ∨
          ∃ name, evaluateWithin limit text bindings = .error (.during .parsing (.unbound name))) := by
  constructor
  · intro limit bindings hnodup hvalid hbound
    obtain ⟨b, hb, hanswer⟩ := evaluateWithin_of_bound hread hvalid hbound limit
    refine ⟨_, b, hb, ?_, fun other hperm => (evaluateWithin_perm hread hvalid hnodup hperm limit).trans hanswer⟩
    rw [Mode.ofValues_eq_binary, Bindings.values, ne_eq, List.map_eq_nil_iff]
  · intro limit limit' bindings other hlimit hlimit' hnodup hvalid hperm
    refine ⟨?_, evaluateWithin_cases hread hvalid limit⟩
    rw [evaluateWithin_perm hread hvalid hnodup hperm, evaluateWithin_limit hlimit' hlimit]

/-- A variable that simplification removes, and a binding for a name that the input does not have. -/
theorem evaluation_sees_no_simplification_removed :
    let e : Expr := .and (.var "x") (.or (.var "y") (.not (.var "y")))
    let bits : Bindings Value := [("x", .bit 1), ("y", .bit 0), ("z", .bit 1)]
    let only : Bindings Value := [("x", .bool true)]
    ofText "x & (y | !y)" = .ok e ∧ (bits.names.Nodup ∧ bits.Valid ∧ ∀ name ∈ e.vars, name ∈ bits.names) ∧
      evaluateWithin 0 "x & (y | !y)" bits.reverse = .ok (.bit 1) ∧ (only.names.Nodup ∧ only.Valid) ∧
      evaluateWithin 5 "x & (y | !y)" only = evaluateWithin 1 "x & (y | !y)" only := by
  intro e bits only
  have hread : ofText "x & (y | !y)" = .ok e := ofText_text (e := e) (by decide) (by decide)
  have hbits : bits.Valid := by simp [bits, Bindings.Valid, Bindings.values, Value.truth]
  have honly : only.Valid := by simp [only, Bindings.Valid, Bindings.values, Value.truth]
  obtain ⟨hbound, hlimits⟩ := evaluation_sees_no_simplification hread
  obtain ⟨mode, b, hb, hmode, hanswer⟩ := hbound 0 bits (by decide) hbits (by decide)
  obtain rfl := hmode.mpr ⟨List.cons_ne_nil _ _, by decide⟩
  obtain rfl : true = b := Except.ok.inj hb
  exact ⟨hread, ⟨by decide, hbits, by decide⟩, hanswer _ (List.reverse_perm bits), ⟨by decide, honly⟩,
    (hlimits 1 5 only only (by decide) (by decide) (by decide) honly (List.Perm.refl only)).1⟩

end Query
end Minterm
