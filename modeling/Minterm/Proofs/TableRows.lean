import Minterm.Proofs.TableChecks

/-! The rows of an accepted table: there is at least one, there are as many inputs as outputs, and all rows
    of a side have one width, which is not zero. -/

namespace Minterm

namespace TruthTable

/-! ### One side of a table -/

/-- The width of a list of rows: that of the first one. -/
def rowWidth (rows : List (List Bool)) : Nat := (rows.head?.map List.length).getD 0

/-- Rows of one width, which is not zero. -/
structure Rectangular (rows : List (List Bool)) : Prop where
  ne_nil : rows ≠ []
  width_pos : 0 < rowWidth rows
  width : ∀ row ∈ rows, row.length = rowWidth rows

theorem rectangular_of_width {rows : List (List Bool)} {width : Nat} (hne : rows ≠ []) (hpos : 0 < width)
    (hwidth : ∀ row ∈ rows, row.length = width) : Rectangular rows := by
  cases rows with
  | nil => exact absurd rfl hne
  | cons first rest =>
    obtain rfl := hwidth first List.mem_cons_self
    exact ⟨hne, hpos, hwidth⟩

theorem map_length_eq {rows : List (List Value)} {bits : List (List Bool)}
    (h : List.Forall₂ (List.Forall₂ Value.Means) rows bits) : bits.map List.length = rows.map List.length := by
  induction h with
  | nil => rfl
  | cons hrow _ ih => rw [List.map_cons, List.map_cons, hrow.length_eq, ih]

theorem rectangular_truthsOfRows {rows : List (List Value)} {bits : List (List Bool)} (h : truthsOfRows rows = .ok bits) :
    Rectangular bits ∧ bits.length = rows.length := by
  obtain ⟨⟨hne, width, hpos, hsound⟩, hbits⟩ := truthsOfRows_eq_ok.mp h
  refine ⟨rectangular_of_width (fun hnil => ?_) hpos fun row hrow => ?_, hbits.length_eq.symm⟩
  · rw [hnil] at hbits
    exact hne (List.forall₂_nil_right_iff.mp hbits)
  · have hmem := map_length_eq hbits ▸ List.mem_map_of_mem (f := List.length) hrow
    obtain ⟨source, hsource, hlength⟩ := List.mem_map.mp hmem
    rw [← hlength, (hsound source hsource).width]

/-! ### Accepted tables -/

/-- As many inputs as outputs, each of one width. -/
structure Regular (table : TruthTable) : Prop where
  inputs : Rectangular table.inputs
  outputs : Rectangular table.outputs
  counts : table.outputs.length = table.inputs.length

theorem regular_ofRows {inputs outputs : List (List Value)} {table : TruthTable} (h : ofRows inputs outputs = .ok table) :
    table.Regular := by
  obtain ⟨hcounts, hins, houts⟩ := ofRows_eq_ok.mp h
  obtain ⟨hinputs, hin⟩ := rectangular_truthsOfRows hins
  obtain ⟨houtputs, hout⟩ := rectangular_truthsOfRows houts
  exact ⟨hinputs, houtputs, by rw [hin, hout, hcounts]⟩

end TruthTable
end Minterm
