import Minterm.Gate.Eval
import Mathlib.Tactic.Common

/-! Gates and their partners. Whether a gate has an output depends on the number of its inputs alone, and a gate
    and its partner take the same numbers of inputs; the partner of the partner is the gate itself. Their outputs
    are complements of each other, with one exception: the inverter is its own partner. -/

namespace Minterm

/-- An arity allows a number of inputs. -/
def Arity.Allows : Arity → Nat → Prop
  | .exactly k, n => n = k
  | .atLeast k, n => k ≤ n

namespace Gate
variable {gate : Gate} {inputs : List Bool}

/-! ### Arities -/

theorem arity_negated (gate : Gate) : gate.negated.arity = gate.arity := by
  cases gate <;> rfl

theorem isSome_output?_iff : (gate.output? inputs).isSome ↔ gate.arity.Allows inputs.length := by
  cases gate with
  | not =>
    rcases inputs with _ | ⟨a, _ | ⟨b, rest⟩⟩ <;> simp [output?, arity, Arity.Allows]
  | cond | ncond | conv | nconv | bicond | nbicond =>
    rcases inputs with _ | ⟨a, _ | ⟨b, _ | ⟨c, rest⟩⟩⟩ <;> simp [output?, arity, Arity.Allows]
  | and | or | xor | nand | nor | xnor =>
    rcases inputs with _ | ⟨a, _ | ⟨b, rest⟩⟩ <;> simp [output?, arity, Arity.Allows]

theorem eval_eq_ok_iff {b : Bool} : gate.eval inputs = .ok b ↔ gate.output? inputs = some b := by
  unfold eval
  cases gate.output? inputs <;> simp

/-- A gate works if and only if it is given as many inputs as it takes. -/
theorem exists_eval_iff : (∃ b, gate.eval inputs = .ok b) ↔ gate.arity.Allows inputs.length := by
  simp only [eval_eq_ok_iff, ← Option.isSome_iff_exists, isSome_output?_iff]

/-! ### Outputs -/

theorem output?_negated (h : gate ≠ .not) (inputs : List Bool) :
    gate.negated.output? inputs = (gate.output? inputs).map (!·) := by
  cases gate with
  | not => exact absurd rfl h
  | and | or | xor => rcases inputs with _ | ⟨a, _ | ⟨b, rest⟩⟩ <;> rfl
  | nand | nor | xnor =>
    rcases inputs with _ | ⟨a, _ | ⟨b, rest⟩⟩
    · rfl
    · rfl
    · exact congrArg some (Bool.not_not _).symm
  | cond | ncond | conv | nconv | bicond | nbicond =>
    rcases inputs with _ | ⟨a, _ | ⟨b, _ | ⟨c, rest⟩⟩⟩
    · rfl
    · rfl
    · cases a <;> cases b <;> rfl
    · rfl

/-- The partner of the partner of a gate is the gate. Both work on the same inputs, and where they do, the partner
    gives the complement of what the gate gives if and only if the gate is not the inverter. -/
theorem partners_compute_complements (gate : Gate) (inputs : List Bool) :
    gate.negated.negated = gate ∧
      ((∃ b, gate.negated.eval inputs = .ok b) ↔ ∃ b, gate.eval inputs = .ok b) ∧
      ∀ b, gate.eval inputs = .ok b → (gate.negated.eval inputs = .ok (!b) ↔ gate ≠ .not) := by
  refine ⟨by cases gate <;> rfl, ?_, fun b hb => ⟨?_, fun hgate => ?_⟩⟩
  · rw [exists_eval_iff, exists_eval_iff, arity_negated]
  · -- The partner of the inverter gives what the inverter gives.
    rintro hcomplement rfl
    exact (Bool.not_eq_self b).mp (Except.ok.inj (hcomplement.symm.trans hb))
  · rw [eval_eq_ok_iff] at hb ⊢
    rw [output?_negated hgate, hb, Option.map_some]

/-- Three inputs, one of which is on. -/
theorem partners_compute_complements_three :
    Gate.nor.eval [false, true, false] = .ok false ∧ Gate.nor ≠ .not ∧
      Gate.nor.negated.eval [false, true, false] = .ok true := by
  obtain ⟨-, -, hcomplement⟩ := partners_compute_complements .nor [false, true, false]
  have heval : Gate.nor.eval [false, true, false] = .ok false := rfl
  have hgate : Gate.nor ≠ .not := by decide
  exact ⟨heval, hgate, (hcomplement false heval).mpr hgate⟩

/-- The partner of the inverter does not give the complement of what the inverter gives. -/
theorem inverter_without_complement :
    ¬ ∀ (gate : Gate) (inputs : List Bool) (b : Bool), gate.eval inputs = .ok b →
      gate.negated.eval inputs = .ok (!b) := by
  intro h
  have hpartner : Gate.not.negated.eval [true] = .ok true := h .not [true] false rfl
  have hinverter : Gate.not.negated.eval [true] = .ok false := rfl
  cases hpartner.symm.trans hinverter

end Gate
end Minterm
