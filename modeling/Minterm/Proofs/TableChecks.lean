import Mathlib.Data.List.Forall2
import Minterm.Proofs.Lists
import Minterm.TruthTable

/-! Which rows make a truth table, and what is reported of those that do not. A side of a table is sound if it
    has rows, all of one width that is not zero, with nothing in them but truth values. A table is accepted
    if both sides are sound and equally long, and then it holds the truth values cell by cell. Of several
    defects only one is reported, and which one is said here without the checks (`TableFault`): the counts
    come first, then the inputs, then the outputs; within a side the first row that has a defect, and
    within a row its width before its values. -/

namespace Minterm

/-! ### Values -/

namespace Value

/-- The truth value that is written by a value. -/
inductive Means : Value → Bool → Prop
  | bool (b : Bool) : Means (.bool b) b
  | zero : Means (.bit 0) false
  | one : Means (.bit 1) true

/-- The first value without a truth value is the bit `n`. -/
def FirstInvalid (n : UInt8) (values : List Value) : Prop :=
  FirstAt (fun v => ∃ b, v.Means b) (fun _ v => v = .bit n ∧ n ≠ 0 ∧ n ≠ 1) values

theorem truth_eq_ok {v : Value} {b : Bool} : v.truth = .ok b ↔ v.Means b := by
  constructor
  · intro h
    unfold truth at h
    split at h <;> cases h
    · exact .bool b
    · exact .zero
    · exact .one
  · rintro (_ | _ | _) <;> rfl

theorem truth_eq_error {v : Value} {fault : Fault} :
    v.truth = .error fault ↔ ∃ n, fault = .invalidBit n ∧ v = .bit n ∧ n ≠ 0 ∧ n ≠ 1 := by
  constructor
  · intro h
    unfold truth at h
    split at h <;> cases h
    rename_i n hzero hone
    exact ⟨n, rfl, rfl, hzero, hone⟩
  · rintro ⟨n, rfl, rfl, hzero, hone⟩
    unfold truth
    split <;> simp_all

theorem truths_eq_ok {values : List Value} {bits : List Bool} :
    truths values = .ok bits ↔ List.Forall₂ Means values bits := by
  rw [truths, mapM_eq_ok, ← List.forall₂_eq_eq_eq, List.forall₂_map_left_iff, List.forall₂_map_right_iff]
  simp only [truth_eq_ok]

theorem exists_truths {values : List Value} : (∃ bits, truths values = .ok bits) ↔ ∀ v ∈ values, ∃ b, v.Means b := by
  simp only [truths, exists_mapM_eq_ok, truth_eq_ok]

theorem truths_eq_error {values : List Value} {fault : Fault} :
    truths values = .error fault ↔ ∃ n, fault = .invalidBit n ∧ FirstInvalid n values := by
  rw [truths, mapM_eq_error]
  simp only [truth_eq_ok, truth_eq_error]
  constructor
  · rintro ⟨front, v, back, hvalues, hfront, n, hfault, hv⟩
    exact ⟨n, hfault, front, v, back, hvalues, hfront, hv⟩
  · rintro ⟨n, hfault, front, v, back, hvalues, hfront, hv⟩
    exact ⟨front, v, back, hvalues, hfront, n, hfault, hv⟩

end Value

namespace TruthTable
open Value

/-! ### Rows -/

/-- A row of the right width with nothing in it but truth values. -/
structure SoundRow (width : Nat) (row : List Value) : Prop where
  width : row.length = width
  values : ∀ v ∈ row, ∃ b, v.Means b

/-- What is reported of a row: its width, or else its first bit that is neither `0` nor `1`. -/
inductive RowFault (width index : Nat) (row : List Value) : Fault → Prop
  | width (h : row.length ≠ width) : RowFault width index row (.rowWidth index width row.length)
  | value {n : UInt8} (h : row.length = width) (hfirst : FirstInvalid n row) : RowFault width index row (.invalidBit n)

/-- The truth values of one row. -/
def rowTruths (width index : Nat) (row : List Value) : Except Fault (List Bool) :=
  if row.length ≠ width then .error (.rowWidth index width row.length) else truths row

section Rows
variable {width : Nat} {row : List Value} {rows : List (List Value)} {fault : Fault}

theorem rowTruths_eq_ok {index : Nat} {bits : List Bool} :
    rowTruths width index row = .ok bits ↔ row.length = width ∧ List.Forall₂ Means row bits := by
  unfold rowTruths
  split
  · rename_i hwidth
    exact iff_of_false (fun h => nomatch h) fun h => hwidth h.1
  · rename_i hwidth
    rw [truths_eq_ok, and_iff_right (not_not.mp hwidth)]

theorem rowTruths_eq_error {index : Nat} : rowTruths width index row = .error fault ↔ RowFault width index row fault := by
  unfold rowTruths
  split
  · rename_i hwidth
    constructor
    · intro h
      cases h
      exact .width hwidth
    · rintro (h | ⟨h, -⟩)
      · rfl
      · exact absurd h hwidth
  · rename_i hwidth
    rw [truths_eq_error]
    constructor
    · rintro ⟨n, rfl, hfirst⟩
      exact .value (not_not.mp hwidth) hfirst
    · rintro (h | ⟨-, hfirst⟩)
      · exact absurd h hwidth
      · exact ⟨_, rfl, hfirst⟩

theorem soundRow_iff (index : Nat) : SoundRow width row ↔ ∃ bits, rowTruths width index row = .ok bits := by
  simp only [rowTruths_eq_ok, exists_and_left, ← truths_eq_ok, exists_truths]
  exact ⟨fun h => ⟨h.width, h.values⟩, fun h => ⟨h.1, h.2⟩⟩

theorem truthRows_cons (width index : Nat) (row : List Value) (rows : List (List Value)) :
    truthRows width index (row :: rows) = do
      let first ← rowTruths width index row
      let rest ← truthRows width (index + 1) rows
      return first :: rest := by
  rw [truthRows, rowTruths]
  split <;> rfl

theorem truthRows_eq_ok {index : Nat} {bits : List (List Bool)} :
    truthRows width index rows = .ok bits ↔
      (∀ row ∈ rows, row.length = width) ∧ List.Forall₂ (List.Forall₂ Means) rows bits := by
  induction rows generalizing index bits with
  | nil => cases bits <;> simp [truthRows]
  | cons row rows ih =>
    rw [truthRows_cons, bind_cons_eq_ok, List.forall_mem_cons, List.forall₂_cons_left_iff]
    constructor
    · rintro ⟨first, rest, hfirst, hrest, rfl⟩
      obtain ⟨hwidth, hfirst⟩ := rowTruths_eq_ok.mp hfirst
      obtain ⟨hwidths, hrest⟩ := ih.mp hrest
      exact ⟨⟨hwidth, hwidths⟩, first, rest, hfirst, hrest, rfl⟩
    · rintro ⟨⟨hwidth, hwidths⟩, first, rest, hfirst, hrest, rfl⟩
      exact ⟨first, rest, rowTruths_eq_ok.mpr ⟨hwidth, hfirst⟩, ih.mpr ⟨hwidths, hrest⟩, rfl⟩

theorem exists_truthRows (index : Nat) :
    (∃ bits, truthRows width index rows = .ok bits) ↔ ∀ row ∈ rows, SoundRow width row := by
  induction rows generalizing index with
  | nil => exact iff_of_true ⟨[], rfl⟩ (List.forall_mem_nil _)
  | cons row rows ih =>
    rw [List.forall_mem_cons, ← ih (index + 1), soundRow_iff index]
    simp only [truthRows_cons, bind_cons_eq_ok]
    constructor
    · rintro ⟨bits, first, rest, hfirst, hrest, -⟩
      exact ⟨⟨first, hfirst⟩, rest, hrest⟩
    · rintro ⟨⟨first, hfirst⟩, rest, hrest⟩
      exact ⟨_, first, rest, hfirst, hrest, rfl⟩

/-- Rows are refused for the first of them that is not sound. -/
theorem truthRows_eq_error {index : Nat} :
    truthRows width index rows = .error fault ↔
      FirstAt (SoundRow width) (fun i row => RowFault width (index + i) row fault) rows := by
  induction rows generalizing index with
  | nil => exact iff_of_false (fun h => nomatch h) not_firstAt_nil
  | cons row rows ih =>
    have hplace : (fun i row => RowFault width (index + (i + 1)) row fault) =
        fun i row => RowFault width (index + 1 + i) row fault := by
      funext i row
      rw [Nat.add_assoc, Nat.add_comm 1 i]
    rw [truthRows_cons, bind_cons_eq_error, rowTruths_eq_error, ← soundRow_iff, ih, firstAt_cons, hplace]
    rfl

end Rows

/-! ### Sides -/

/-- At least one row, and all rows sound with one width that is not zero. -/
def SoundSide (rows : List (List Value)) : Prop := rows ≠ [] ∧ ∃ width, 0 < width ∧ ∀ row ∈ rows, SoundRow width row

/-- What is reported of a side that has rows: that the first one is empty, or else the first row that is not sound
    with the width of the first one. -/
inductive SideFault (rows : List (List Value)) : Fault → Prop
  | empty (h : rows.head? = some []) : SideFault rows .emptyTable
  | row {first : List Value} {fault : Fault} (hfirst : rows.head? = some first) (hwidth : first.length ≠ 0)
      (h : FirstAt (SoundRow first.length) (fun i row => RowFault first.length i row fault) rows) : SideFault rows fault

section Sides
variable {rows : List (List Value)}

theorem truthsOfRows_eq_ok {bits : List (List Bool)} :
    truthsOfRows rows = .ok bits ↔ SoundSide rows ∧ List.Forall₂ (List.Forall₂ Means) rows bits := by
  rcases rows with _ | ⟨_ | ⟨v, first⟩, rows⟩
  · exact iff_of_false (fun h => nomatch h) fun h => h.1.1 rfl
  · refine iff_of_false (fun h => nomatch h) ?_
    rintro ⟨⟨-, width, hpos, hsound⟩, -⟩
    exact hpos.ne (hsound [] List.mem_cons_self).width
  · show truthRows (v :: first).length 0 ((v :: first) :: rows) = .ok bits ↔ _
    constructor
    · intro h
      exact ⟨⟨List.cons_ne_nil _ _, _, Nat.succ_pos _, (exists_truthRows 0).mp ⟨bits, h⟩⟩, (truthRows_eq_ok.mp h).2⟩
    · rintro ⟨⟨-, width, -, hsound⟩, hbits⟩
      obtain rfl := (hsound _ List.mem_cons_self).width
      exact truthRows_eq_ok.mpr ⟨fun row hrow => (hsound row hrow).width, hbits⟩

theorem exists_truthsOfRows : (∃ bits, truthsOfRows rows = .ok bits) ↔ SoundSide rows := by
  constructor
  · rintro ⟨bits, h⟩
    exact (truthsOfRows_eq_ok.mp h).1
  · intro h
    obtain ⟨width, -, hsound⟩ := h.2
    obtain ⟨bits, hbits⟩ := (exists_truthRows 0).mpr hsound
    exact ⟨bits, truthsOfRows_eq_ok.mpr ⟨h, (truthRows_eq_ok.mp hbits).2⟩⟩

theorem truthsOfRows_eq_error {fault : Fault} (h : rows ≠ []) : truthsOfRows rows = .error fault ↔ SideFault rows fault := by
  rcases rows with _ | ⟨_ | ⟨v, first⟩, rows⟩
  · exact absurd rfl h
  · constructor
    · intro h
      cases h
      exact .empty rfl
    · rintro (- | ⟨hfirst, hwidth, -⟩)
      · rfl
      · cases hfirst
        exact absurd rfl hwidth
  · show truthRows (v :: first).length 0 ((v :: first) :: rows) = .error fault ↔ _
    rw [truthRows_eq_error]
    simp only [Nat.zero_add]
    constructor
    · exact .row rfl (Nat.succ_ne_zero _)
    · rintro (hempty | ⟨hfirst, -, h⟩)
      · cases hempty
      · cases hfirst
        exact h

end Sides

/-! ### Tables -/

/-- What is reported of the rows for a table: a list without rows, or else the numbers of rows, or else what is
    reported of the inputs, or else what is reported of the outputs. -/
inductive TableFault (inputs outputs : List (List Value)) : Fault → Prop
  | empty (h : inputs = [] ∨ outputs = []) : TableFault inputs outputs .emptyTable
  | counts (hinputs : inputs ≠ []) (houtputs : outputs ≠ []) (h : inputs.length ≠ outputs.length) :
      TableFault inputs outputs (.rowCounts inputs.length outputs.length)
  | inputs {fault : Fault} (hinputs : inputs ≠ []) (h : inputs.length = outputs.length) (hfault : SideFault inputs fault) :
      TableFault inputs outputs fault
  | outputs {fault : Fault} (h : inputs.length = outputs.length) (hinputs : SoundSide inputs) (hfault : SideFault outputs fault) :
      TableFault inputs outputs fault

section Tables
variable {inputs outputs : List (List Value)}

theorem ofRows_of_empty (h : inputs = [] ∨ outputs = []) : ofRows inputs outputs = .error .emptyTable := by
  rw [ofRows, if_pos]
  simpa using h

theorem ofRows_of_counts (hinputs : inputs ≠ []) (houtputs : outputs ≠ []) (h : inputs.length ≠ outputs.length) :
    ofRows inputs outputs = .error (.rowCounts inputs.length outputs.length) := by
  rw [ofRows, if_neg (by simp [hinputs, houtputs]), if_pos h]

/-- Past the checks of the counts, the sides are read one after the other. -/
theorem ofRows_of_rows (hinputs : inputs ≠ []) (houtputs : outputs ≠ []) (h : inputs.length = outputs.length) :
    ofRows inputs outputs = do
      let ins ← truthsOfRows inputs
      let outs ← truthsOfRows outputs
      return ⟨ins, outs⟩ := by
  rw [ofRows, if_neg (by simp [hinputs, houtputs]), if_neg (not_not.mpr h)]

theorem ofRows_eq_ok {table : TruthTable} :
    ofRows inputs outputs = .ok table ↔
      inputs.length = outputs.length ∧ truthsOfRows inputs = .ok table.inputs ∧ truthsOfRows outputs = .ok table.outputs := by
  by_cases hempty : inputs = [] ∨ outputs = []
  · rw [ofRows_of_empty hempty]
    refine iff_of_false (fun h => nomatch h) ?_
    rintro ⟨-, hins, houts⟩
    rcases hempty with rfl | rfl
    · cases hins
    · cases houts
  · obtain ⟨hinputs, houtputs⟩ := not_or.mp hempty
    by_cases hcounts : inputs.length = outputs.length
    · rw [ofRows_of_rows hinputs houtputs hcounts, and_iff_right hcounts]
      constructor
      · intro h
        obtain ⟨ins, hins, h⟩ := bind_eq_ok h
        obtain ⟨outs, houts, h⟩ := bind_eq_ok h
        cases h
        exact ⟨hins, houts⟩
      · rintro ⟨hins, houts⟩
        rw [hins, houts]
        rfl
    · rw [ofRows_of_counts hinputs houtputs hcounts]
      exact iff_of_false (fun h => nomatch h) fun h => hcounts h.1

theorem ofRows_eq_error {fault : Fault} : ofRows inputs outputs = .error fault ↔ TableFault inputs outputs fault := by
  constructor
  · intro h
    by_cases hempty : inputs = [] ∨ outputs = []
    · rw [ofRows_of_empty hempty] at h
      cases h
      exact .empty hempty
    obtain ⟨hinputs, houtputs⟩ := not_or.mp hempty
    by_cases hcounts : inputs.length = outputs.length
    · rw [ofRows_of_rows hinputs houtputs hcounts] at h
      rcases bind_eq_error h with hins | ⟨ins, hins, h⟩
      · exact .inputs hinputs hcounts ((truthsOfRows_eq_error hinputs).mp hins)
      · rcases bind_eq_error h with houts | ⟨outs, -, h⟩
        · exact .outputs hcounts (truthsOfRows_eq_ok.mp hins).1 ((truthsOfRows_eq_error houtputs).mp houts)
        · cases h
    · rw [ofRows_of_counts hinputs houtputs hcounts] at h
      cases h
      exact .counts hinputs houtputs hcounts
  · rintro (hempty | ⟨hinputs, houtputs, hcounts⟩ | ⟨hinputs, hcounts, hfault⟩ | ⟨hcounts, hsound, hfault⟩)
    · exact ofRows_of_empty hempty
    · exact ofRows_of_counts hinputs houtputs hcounts
    · have houtputs : outputs ≠ [] := fun h => hinputs (List.length_eq_zero_iff.mp (by rw [hcounts, h, List.length_nil]))
      rw [ofRows_of_rows hinputs houtputs hcounts, (truthsOfRows_eq_error hinputs).mpr hfault]
      rfl
    · have houtputs : outputs ≠ [] := fun h => hsound.1 (List.length_eq_zero_iff.mp (by rw [hcounts, h, List.length_nil]))
      obtain ⟨ins, hins⟩ := exists_truthsOfRows.mpr hsound
      rw [ofRows_of_rows hsound.1 houtputs hcounts, hins, (truthsOfRows_eq_error houtputs).mpr hfault]
      rfl

end Tables

/-- A table is made of the rows exactly if both sides are sound and have as many rows; it then holds their truth
    values, cell by cell. What is reported of all other rows is their first defect. -/
theorem table_checks_are_exact (inputs outputs : List (List Value)) :
    ((∃ table, ofRows inputs outputs = .ok table) ↔
      inputs.length = outputs.length ∧ SoundSide inputs ∧ SoundSide outputs) ∧
    (∀ table, ofRows inputs outputs = .ok table ↔
      (inputs.length = outputs.length ∧ SoundSide inputs ∧ SoundSide outputs) ∧
        List.Forall₂ (List.Forall₂ Means) inputs table.inputs ∧ List.Forall₂ (List.Forall₂ Means) outputs table.outputs) ∧
    ∀ fault, ofRows inputs outputs = .error fault ↔ TableFault inputs outputs fault := by
  refine ⟨?_, fun table => ?_, fun fault => ofRows_eq_error⟩
  · simp only [ofRows_eq_ok, ← exists_truthsOfRows]
    constructor
    · rintro ⟨table, hcounts, hins, houts⟩
      exact ⟨hcounts, ⟨_, hins⟩, _, houts⟩
    · rintro ⟨hcounts, ⟨ins, hins⟩, outs, houts⟩
      exact ⟨⟨ins, outs⟩, hcounts, hins, houts⟩
  · rw [ofRows_eq_ok, truthsOfRows_eq_ok, truthsOfRows_eq_ok]
    constructor
    · rintro ⟨hcounts, ⟨hinputs, hins⟩, houtputs, houts⟩
      exact ⟨⟨hcounts, hinputs, houtputs⟩, hins, houts⟩
    · rintro ⟨⟨hcounts, hinputs, houtputs⟩, hins, houts⟩
      exact ⟨hcounts, ⟨hinputs, hins⟩, houtputs, houts⟩

/-- A row that is too short is reported for its width, whatever it holds and whatever is wrong with the outputs. -/
example : ofRows [[.bit 1, .bool true], [.bit 7]] [[.bit 9], []] = .error (.rowWidth 1 2 1) := by decide

end TruthTable
end Minterm
