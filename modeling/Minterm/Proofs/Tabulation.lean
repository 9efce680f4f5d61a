import Minterm.Proofs.ModelCount
import Minterm.TruthTable

/-! Three enumerations of one function: the Karnaugh map, the truth table and the number of satisfying
    assignments. All three read an expression under lookups that bind the names of the list and no others,
    so all of them fail or none does, and the fault is that of the first name outside the list.

    A row of the table shows one bit for each position of the list, the same one at all positions of a name,
    and stands at one cell of the map. The map reads a repeated name at its first position, and the count at
    its last; each has as many rows that make the expression true as there are ways to bind the names. -/

namespace Minterm

theorem assignments_ne_nil (vars : List String) : assignments vars ≠ [] := by
  rw [assignments, Ne, List.map_eq_nil_iff]
  exact List.ne_nil_of_mem (mem_bitRows.mpr (List.length_replicate (a := false)))

/-! ### Names outside the list -/

section Outside
variable {e : Expr} {vars : List String} {name : String} (hfirst : e.names.find? (· ∉ vars) = some name)
include hfirst

theorem KarnaughMap.ofExpr_of_outside (hcount : 2 ≤ vars.length ∧ vars.length ≤ 4) :
    ofExpr e vars = .error (.unbound name) := by
  obtain ⟨layout, hlayout⟩ := Layout.exists_ofCount.mpr hcount
  have heval : ∀ rowCode ∈ layout.rowCodes, ∀ colCode ∈ layout.colCodes,
      e.eval (firstBit? vars (rowCode ++ colCode)) = .error (.unbound name) := fun rowCode hr colCode hc =>
    Expr.eval_of_outside (isSome_firstBit? (Layout.length_codes hlayout hr hc)) hfirst
  have hrows : layout.rowCodes ≠ [] := grayCode_ne_nil layout.rowVars
  have hcols : layout.colCodes ≠ [] := grayCode_ne_nil layout.colVars
  rw [ofExpr_of_layout hlayout, mapM_of_error hrows fun rowCode hr => mapM_of_error hcols (heval rowCode hr)]
  rfl

theorem Expr.eval_assignment_of_outside {bindings : Bindings Bool} (h : bindings ∈ assignments vars) :
    e.eval bindings.value? = .error (.unbound name) :=
  eval_of_outside (fun _ => isSome_value?_of_mem h) hfirst

theorem TruthTable.ofExpr_of_outside : ofExpr e vars = .error (.unbound name) := by
  rw [ofExpr, foldAssignments_eq, foldlM_of_error (assignments_ne_nil vars) fun bindings hmem rows => ?_]
  · rfl
  · rw [Expr.eval_assignment_of_outside hfirst hmem]
    rfl

theorem Expr.satCount_of_outside : e.satCount vars = .error (.unbound name) := by
  rw [satCount, foldAssignments_eq, foldlM_of_error (assignments_ne_nil vars) fun bindings hmem count => ?_]
  rw [eval_assignment_of_outside hfirst hmem]
  rfl

end Outside

/-! ### Rows and cells -/

/-- The table has a row for each assignment, with the bit of every position and the value. -/
theorem TruthTable.ofExpr_eq_ok {e : Expr} {vars : List String} (h : ∀ name ∈ e.names, name ∈ vars) :
    ofExpr e vars = .ok ⟨(assignments vars).map fun bindings => vars.map bindings.total,
      (assignments vars).map fun bindings => [e.denote bindings.total]⟩ := by
  have hstep : ∀ bindings ∈ assignments vars, ∀ rows : List (List Bool × List Bool), (do
      let value ← e.eval bindings.value?
      return (vars.map fun name => (bindings.value? name).getD false, [value]) :: rows) =
        Except.ok ((vars.map bindings.total, [e.denote bindings.total]) :: rows) := by
    intro bindings hmem rows
    rw [Expr.eval_of_mem_assignments hmem h]
    rfl
  rw [ofExpr, foldAssignments_eq, foldlM_push hstep]
  show Except.ok (TruthTable.mk _ _) = _
  rw [List.append_nil, List.reverse_reverse, List.map_map, List.map_map]
  rfl

namespace KarnaughMap
variable {e : Expr} {vars : List String} {map : KarnaughMap}

/-- There is one cell at which every position has the bit of its name, and there stands the value. -/
theorem exists_cell_of_row (h : ofExpr e vars = .ok map) (values : String → Bool) :
    ∃ cell ∈ map.layout.cells, (∀ i < vars.length, (vars.map values)[i]? = some (map.layout.bit cell i)) ∧
      map.value cell = e.denote values ∧
      ∀ other ∈ map.layout.cells, (∀ i < vars.length, (vars.map values)[i]? = some (map.layout.bit other i)) →
        other = cell := by
  have hsum := Layout.rowVars_add_colVars (ofExpr_eq_ok h).2.1
  have hlength : (vars.map values).length = map.layout.rowVars + map.layout.colVars := by rw [List.length_map, hsum]
  obtain ⟨cell, hcell, hbits⟩ := exists_cell_of_assignment h values
  simp only [← hsum]
  refine ⟨cell, hcell, (Layout.bits_eq_iff hcell hlength).mp hbits, value_eq_denote h hcell hbits,
    fun other hother hagree => ?_⟩
  exact Layout.eq_of_bits_eq hother hcell (((Layout.bits_eq_iff hother hlength).mpr hagree).trans hbits.symm)

theorem length_ones (h : ofExpr e vars = .ok map) :
    map.ones.length = countBindings e.denote (fun _ => false) vars := by
  obtain ⟨-, hlayout, hvalue⟩ := ofExpr_eq_ok h
  let test (bits : List Bool) : Bool := e.denote fun name => (firstBit? vars bits name).getD false
  have hcells : ∀ cell ∈ map.layout.cells, map.value cell = test (map.layout.bits cell) := fun cell hcell =>
    (Expr.eval_eq_ok_iff.mp (hvalue cell hcell)).2.symm
  calc map.ones.length
    _ = map.layout.cells.countP (test ∘ map.layout.bits) := by
      rw [ones, ← List.countP_eq_length_filter]
      exact List.countP_congr fun cell hcell => by rw [hcells cell hcell]; rfl
    _ = (bitRows vars.length).countP test := by
      rw [← List.countP_map, map.layout.bits_cells_perm.countP_eq, Layout.rowVars_add_colVars hlayout]
    _ = countBindings e.denote (fun _ => false) vars.reverse := countP_firstBit? e.denote (fun _ => false) vars
    _ = countBindings e.denote (fun _ => false) vars := countBindings_perm _ _ vars.reverse_perm

end KarnaughMap

/-- Over two, three or four names, of which some may be equal, the map, the table and the count of an
    expression all fail with the same name, or all succeed. Then every row of the table has its bits at
    exactly one cell, where its output stands, and there are as many cells with value `1` as satisfying
    assignments. -/
theorem map_table_and_count_agree (e : Expr) (vars : List String) (hcount : 2 ≤ vars.length ∧ vars.length ≤ 4) :
    (∃ name, KarnaughMap.ofExpr e vars = .error (.unbound name) ∧ TruthTable.ofExpr e vars = .error (.unbound name) ∧
      e.satCount vars = .error (.unbound name)) ∨
    ∃ map table count, KarnaughMap.ofExpr e vars = .ok map ∧ TruthTable.ofExpr e vars = .ok table ∧
      e.satCount vars = .ok count ∧ table.rows = 2 ^ vars.length ∧
      (∀ (k : Nat) (row : List Bool), table.inputs[k]? = some row →
        ∃ cell ∈ map.layout.cells, (∀ i < vars.length, row[i]? = some (map.layout.bit cell i)) ∧
          table.outputs[k]? = some [map.value cell] ∧
          ∀ other ∈ map.layout.cells, (∀ i < vars.length, row[i]? = some (map.layout.bit other i)) → other = cell) ∧
      map.ones.length = count := by
  cases hfirst : e.names.find? (· ∉ vars) with
  | some name =>
    exact .inl ⟨name, KarnaughMap.ofExpr_of_outside hfirst hcount, TruthTable.ofExpr_of_outside hfirst,
      Expr.satCount_of_outside hfirst⟩
  | none =>
    have hnames : ∀ name ∈ e.names, name ∈ vars := by simpa using hfirst
    obtain ⟨map, hmap⟩ := KarnaughMap.exists_ofExpr.mpr ⟨hcount, hnames⟩
    refine .inr ⟨map, _, _, hmap, TruthTable.ofExpr_eq_ok hnames, Expr.satCount_eq hnames, ?_, fun k row hrow => ?_,
      KarnaughMap.length_ones hmap⟩
    · rw [TruthTable.rows, List.length_map, assignments, List.length_map, length_bitRows]
    · rw [List.getElem?_map, Option.map_eq_some_iff] at hrow
      obtain ⟨bindings, hbindings, rfl⟩ := hrow
      obtain ⟨cell, hcell, hbits, hvalue, hunique⟩ := KarnaughMap.exists_cell_of_row hmap bindings.total
      refine ⟨cell, hcell, hbits, ?_, hunique⟩
      rw [hvalue, List.getElem?_map, hbindings]
      rfl

/-- The row after the first binds the repeated name to `1` and so stands at a cell of the last row of the map. -/
theorem map_table_and_count_agree_repeated :
    let e : Expr := .and (.var "x") (.not (.var "y"))
    (2 ≤ ["x", "y", "x"].length ∧ ["x", "y", "x"].length ≤ 4) ∧
      ∃ map table, KarnaughMap.ofExpr e ["x", "y", "x"] = .ok map ∧ TruthTable.ofExpr e ["x", "y", "x"] = .ok table ∧
        e.satCount ["x", "y", "x"] = .ok map.ones.length ∧ table.inputs[1]? = some [true, false, true] ∧
        ∃ cell ∈ map.layout.cells, (∀ i < 3, [true, false, true][i]? = some (map.layout.bit cell i)) ∧
          map.value cell = true := by
  intro e
  have hsome : e.satCount ["x", "y", "x"] = .ok 2 := by decide
  have hrow : (TruthTable.ofExpr e ["x", "y", "x"]).map (·.inputs[1]?) = .ok (some [true, false, true]) := by decide
  have houtput : (TruthTable.ofExpr e ["x", "y", "x"]).map (·.outputs[1]?) = .ok (some [true]) := by decide
  rcases map_table_and_count_agree e ["x", "y", "x"] (by decide) with
    ⟨name, -, -, hfault⟩ | ⟨map, table, count, hmap, htable, hsat, -, hrows, rfl⟩
  · rw [hsome] at hfault
    cases hfault
  · rw [htable] at hrow houtput
    obtain ⟨cell, hcell, hbits, hvalue, -⟩ := hrows 1 [true, false, true] (Except.ok.inj hrow)
    have hsame := Option.some.inj (hvalue.symm.trans (Except.ok.inj houtput))
    exact ⟨by decide, map, table, hmap, htable, hsat, Except.ok.inj hrow, cell, hcell, hbits, (List.cons.inj hsame).1⟩

end Minterm
