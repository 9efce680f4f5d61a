import Minterm.Proofs.ColumnNames
import Minterm.Proofs.Minimization
import Minterm.Proofs.TableRows
import Minterm.Synthesis

/-! Functions synthesized from tables compute their tables. An output is a constant, a minimized sum or a
    simplified sum of minterms, and all of these are true under the same assignments: at the rows where
    the column is `1`, and everywhere if it is `1` throughout. Since no two inputs share a name, every
    row of arguments is an assignment of the inputs, and a call evaluates the outputs under it. -/

namespace Minterm

variable {names : List String} {values : String → Bool}

/-! ### Minterms -/

theorem names_minterm (names : List String) (row : List Bool) : (minterm names row).names ⊆ names := by
  refine Expr.names_andAll_subset (List.forall_mem_map.mpr fun pair hpair => ?_)
  rw [Literal.names_toExpr]
  exact List.cons_subset.mpr ⟨(List.of_mem_zip hpair).1, List.nil_subset _⟩

theorem forall_mem_zip_iff {row : List Bool} (h : row.length = names.length) :
    (∀ pair ∈ names.zip row, values pair.1 = pair.2) ↔ row = names.map values := by
  induction names generalizing row with
  | nil => simp [List.length_eq_zero_iff.mp h]
  | cons name names ih =>
    cases row with
    | nil => cases h
    | cons b row =>
      rw [List.zip_cons_cons, List.forall_mem_cons, List.map_cons, List.cons.injEq, ih (Nat.succ.inj h)]
      exact and_congr_left' eq_comm

/-- A minterm is true at its own row only. -/
theorem denote_minterm {row : List Bool} (h : row.length = names.length) :
    (minterm names row).denote values = true ↔ row = names.map values := by
  rw [← forall_mem_zip_iff h, minterm, Expr.denote_andAll, List.all_map, List.all_eq_true]
  simp only [Function.comp_apply, Literal.denote_toExpr, beq_iff_eq]

/-- The sum of the minterms of the rows where the column is `1`. -/
def mintermSum (names : List String) (inputs : List (List Bool)) (column : List Bool) : Expr :=
  Expr.orAll (((inputs.zip column).filter (·.2)).map fun (row, _) => minterm names row)

theorem names_mintermSum (names : List String) (inputs : List (List Bool)) (column : List Bool) :
    (mintermSum names inputs column).names ⊆ names :=
  Expr.names_orAll_subset (List.forall_mem_map.mpr fun pair _ => names_minterm names pair.1)

theorem denote_mintermSum {inputs : List (List Bool)} {column : List Bool}
    (h : ∀ row ∈ inputs, row.length = names.length) :
    (mintermSum names inputs column).denote values = true ↔ (names.map values, true) ∈ inputs.zip column := by
  rw [mintermSum, Expr.denote_orAll, List.any_map, List.any_eq_true]
  constructor
  · rintro ⟨⟨row, b⟩, hmem, htrue⟩
    obtain ⟨hpair, hb⟩ := List.mem_filter.mp hmem
    obtain rfl : b = true := hb
    rwa [(denote_minterm (h row (List.of_mem_zip hpair).1)).mp htrue] at hpair
  · intro hpair
    refine ⟨_, List.mem_filter.mpr ⟨hpair, rfl⟩, ?_⟩
    exact (denote_minterm (h _ (List.of_mem_zip hpair).1)).mpr rfl

/-! ### Columns -/

/-- Minimizing or simplifying, whichever the number of names calls for, keeps value and names. -/
theorem exists_condensed {e : Expr} (h : e.names ⊆ names) :
    ∃ r, (if 2 ≤ names.length ∧ names.length ≤ 4 then e.minimize names else .ok e.simplify) = .ok r ∧
      r.names ⊆ names ∧ ∀ values, r.denote values = e.denote values := by
  split
  · rename_i hcount
    obtain ⟨r, hr⟩ := Expr.exists_minimizeWith.mpr ⟨.inr hcount, fun name hname => h hname⟩
    exact ⟨r, hr, Expr.names_minimizeWith hr, Expr.denote_minimizeWith hr fun map _ => map.covers_greedy⟩
  · refine ⟨_, rfl, List.Subset.trans (Expr.names_simplifyWithin_subset _ e) h, fun values => ?_⟩
    exact Expr.denote_simplifyWithin _ e

/-- The expression of a column is true where the column is `1`, and everywhere if it is `1` throughout. -/
theorem exists_synthesizeColumn {inputs : List (List Bool)} {column : List Bool}
    (h : ∀ row ∈ inputs, row.length = names.length) (hne : column ≠ []) :
    ∃ e, synthesizeColumn names inputs column = .ok e ∧ e.names ⊆ names ∧
      ∀ values, e.denote values = true ↔ (∀ b ∈ column, b = true) ∨ (names.map values, true) ∈ inputs.zip column := by
  unfold synthesizeColumn
  split
  · rename_i hfalse
    have hnone : true ∉ column := fun hmem => by simpa using List.all_eq_true.mp hfalse true hmem
    obtain ⟨b, hb⟩ := List.exists_mem_of_ne_nil _ hne
    refine ⟨_, rfl, List.nil_subset _, fun values => iff_of_false Bool.false_ne_true ?_⟩
    rintro (hall | hpair)
    · exact hnone (hall b hb ▸ hb)
    · exact hnone (List.of_mem_zip hpair).2
  · split
    · rename_i htrue
      exact ⟨_, rfl, List.nil_subset _, fun values => iff_of_true rfl (.inl (List.all_eq_true.mp htrue))⟩
    · rename_i hmixed
      obtain ⟨e, he, hnames, hvalue⟩ := exists_condensed (names_mintermSum names inputs column)
      have hzero : ¬∀ b ∈ column, b = true := fun hall => hmixed (List.all_eq_true.mpr hall)
      refine ⟨e, he, hnames, fun values => ?_⟩
      rw [hvalue, denote_mintermSum h, or_iff_right hzero]

/-! ### Arguments -/

theorem length_columnNames (n : Nat) : ((List.range n).map columnName).length = n := by
  rw [List.length_map, List.length_range]

theorem nodup_columnNames (n : Nat) : ((List.range n).map columnName).Nodup :=
  List.nodup_range.map fun _ _ => columnName_injective

theorem VectorFunction.of_synthesize {table : TruthTable} {mode : Mode} {f : VectorFunction} (h : synthesize table mode = .ok f) :
    f.inputs = (List.range table.inputWidth).map columnName ∧
      ((List.range table.outputWidth).map table.outputColumn).mapM (synthesizeColumn f.inputs table.inputs) = .ok f.outputs := by
  obtain ⟨outputs, houtputs, hf⟩ := bind_eq_ok h
  cases hf
  exact ⟨rfl, houtputs⟩

theorem VectorFunction.length_inputs {table : TruthTable} {mode : Mode} {f : VectorFunction} (h : synthesize table mode = .ok f) :
    f.inputs.length = table.inputWidth := by
  rw [(of_synthesize h).1, length_columnNames]

/-- A call evaluates the outputs under the arguments. -/
theorem VectorFunction.call_eq_ok {f : VectorFunction} (hnames : ∀ e ∈ f.outputs, e.names ⊆ f.inputs) {arguments : List Bool}
    (h : arguments.length = f.arity) :
    f.call arguments = .ok (f.outputs.map (·.denote fun name => (firstBit? f.inputs arguments name).getD false)) := by
  rw [call, if_neg (not_not.mpr h), mapM_eq_ok, List.map_map]
  refine List.map_congr_left fun e he => ?_
  exact Expr.eval_of_bound fun name hname => (isSome_firstBit? h name).mpr (hnames e he hname)

/-! ### Tables -/

namespace TruthTable
variable {table : TruthTable} {j : Nat}

/-- What a table says about output `j`: all its rows have `1` there, or a row with these inputs has. -/
def Demands (table : TruthTable) (j : Nat) (arguments : List Bool) : Prop :=
  (∀ row ∈ table.outputs, row[j]? = some true) ∨
    ∃ row, (arguments, row) ∈ table.inputs.zip table.outputs ∧ row[j]? = some true

/-- Rows with the same inputs have the same outputs. -/
def ConflictFree (table : TruthTable) : Prop :=
  ∀ arguments row other, (arguments, row) ∈ table.inputs.zip table.outputs →
    (arguments, other) ∈ table.inputs.zip table.outputs → row = other

theorem getD_eq_true {b? : Option Bool} : b?.getD false = true ↔ b? = some true := by
  cases b? <;> simp

theorem demands_iff {arguments : List Bool} :
    table.Demands j arguments ↔
      (∀ b ∈ table.outputColumn j, b = true) ∨ (arguments, true) ∈ table.inputs.zip (table.outputColumn j) := by
  rw [Demands, outputColumn, List.forall_mem_map, List.zip_map_right, List.mem_map]
  simp only [getD_eq_true, Prod.exists, Prod.map_apply, id_eq, Prod.mk.injEq]
  refine or_congr_right ⟨?_, ?_⟩
  · rintro ⟨row, hpair, hrow⟩
    exact ⟨arguments, row, hpair, rfl, hrow⟩
  · rintro ⟨_, row, hpair, rfl, hrow⟩
    exact ⟨row, hpair, hrow⟩

/-- On a table without conflicts a listed row demands exactly its own outputs. -/
theorem ConflictFree.demands_iff (h : table.ConflictFree) {arguments row : List Bool}
    (hpair : (arguments, row) ∈ table.inputs.zip table.outputs) : table.Demands j arguments ↔ row[j]? = some true := by
  constructor
  · rintro (hall | ⟨other, hother, hj⟩)
    · exact hall row (List.of_mem_zip hpair).2
    · rwa [h arguments row other hpair hother]
  · exact fun hj => .inr ⟨row, hpair, hj⟩

end TruthTable

namespace VectorFunction
variable {f : VectorFunction} {table : TruthTable}

/-- The function has the inputs and the outputs of a table, each output under its own column. -/
structure Tabulates (f : VectorFunction) (table : TruthTable) : Prop where
  inputs : f.inputs = (List.range table.inputWidth).map columnName
  count : f.outputs.length = table.outputWidth
  names : ∀ e ∈ f.outputs, e.names ⊆ f.inputs
  value : ∀ j e, f.outputs[j]? = some e → ∀ values, e.denote values = true ↔ table.Demands j (f.inputs.map values)

theorem Tabulates.arity_eq (h : f.Tabulates table) : f.arity = table.inputWidth := by
  rw [arity, h.inputs, length_columnNames]

theorem exists_synthesize (h : table.Regular) (mode : Mode) :
    ∃ f, synthesize table mode = .ok f ∧ f.mode = mode ∧ f.Tabulates table := by
  let names := (List.range table.inputWidth).map columnName
  let columns := (List.range table.outputWidth).map table.outputColumn
  have hwidth : names.length = table.inputWidth := length_columnNames _
  have hrows : ∀ row ∈ table.inputs, row.length = names.length := fun row hrow => (h.inputs.width row hrow).trans hwidth.symm
  have hcolumns : ∀ column ∈ columns, ∃ e, synthesizeColumn names table.inputs column = .ok e ∧ e.names ⊆ names ∧
      ∀ values, e.denote values = true ↔
        (∀ b ∈ column, b = true) ∨ (names.map values, true) ∈ table.inputs.zip column := by
    refine List.forall_mem_map.mpr fun j _ => exists_synthesizeColumn hrows fun hnil => ?_
    exact h.outputs.ne_nil (List.map_eq_nil_iff.mp hnil)
  obtain ⟨outputs, houtputs, hspec⟩ := exists_mapM_forall₂ hcolumns
  have hcount : outputs.length = table.outputWidth := by
    rw [← hspec.length_eq, List.length_map, List.length_range]
  have houtput : ∀ j e, outputs[j]? = some e →
      e.names ⊆ names ∧ ∀ values, e.denote values = true ↔ table.Demands j (names.map values) := by
    intro j e he
    obtain ⟨hj, rfl⟩ := List.getElem?_eq_some_iff.mp he
    obtain ⟨hnames, hvalue⟩ := hspec.get (by rw [hspec.length_eq]; exact hj) hj
    simp only [columns, List.get_eq_getElem, List.getElem_map, List.getElem_range] at hnames hvalue
    exact ⟨hnames, fun values => (hvalue values).trans TruthTable.demands_iff.symm⟩
  refine ⟨⟨names, outputs, mode⟩, ?_, rfl, rfl, hcount, fun e he => ?_, fun j e he => (houtput j e he).2⟩
  · rw [synthesize, houtputs]
    rfl
  · obtain ⟨j, hj⟩ := List.mem_iff_getElem?.mp he
    exact (houtput j e hj).1

/-- A call gives what the table demands for the arguments. -/
theorem Tabulates.exists_call (h : f.Tabulates table) {arguments : List Bool} (hlength : arguments.length = table.inputWidth) :
    ∃ results, f.call arguments = .ok results ∧ results.length = table.outputWidth ∧
      ∀ j < table.outputWidth, (results[j]? = some true ↔ table.Demands j arguments) := by
  have harity : arguments.length = f.inputs.length := hlength.trans h.arity_eq.symm
  have hbits := map_firstBit? (h.inputs ▸ nodup_columnNames table.inputWidth) harity
  refine ⟨_, call_eq_ok h.names harity, by rw [List.length_map, h.count], fun j hj => ?_⟩
  have he := List.getElem?_eq_getElem (h.count ▸ hj : j < f.outputs.length)
  rw [List.getElem?_map, he, Option.map_some, Option.some.injEq, h.value j _ he, hbits]

/-- Of a table without conflicts every listed row is reproduced. -/
theorem Tabulates.call_row (h : f.Tabulates table) (hregular : table.Regular) (hfree : table.ConflictFree)
    {arguments row : List Bool} (hpair : (arguments, row) ∈ table.inputs.zip table.outputs) : f.call arguments = .ok row := by
  obtain ⟨harguments, hrow⟩ := List.of_mem_zip hpair
  obtain ⟨results, hcall, hcount, hvalue⟩ := h.exists_call (hregular.inputs.width arguments harguments)
  have hwidth : row.length = table.outputWidth := hregular.outputs.width row hrow
  have hsame : results = row := by
    refine List.ext_getElem (hcount.trans hwidth.symm) fun j hj hj' => ?_
    have hiff := (hvalue j (hcount ▸ hj)).trans (hfree.demands_iff hpair)
    rw [List.getElem?_eq_getElem hj, List.getElem?_eq_getElem hj', Option.some.injEq, Option.some.injEq] at hiff
    exact Bool.eq_iff_iff.mpr hiff
  rw [hcall, hsame]

/-- Every accepted table is synthesized, with one output for each column, in every mode. A call with as many
    arguments as the table has inputs gives `1` for an output if and only if all rows of the table have `1`
    there, or a row with these inputs has; so a table without conflicts is reproduced row by row. -/
theorem synthesis_computes_the_table {inputs outputs : List (List Value)} {table : TruthTable}
    (h : TruthTable.ofRows inputs outputs = .ok table) (mode : Mode) :
    ∃ f, synthesize table mode = .ok f ∧ f.mode = mode ∧ f.arity = table.inputWidth ∧ f.outputs.length = table.outputWidth ∧
      (∀ arguments : List Bool, arguments.length = table.inputWidth →
        ∃ results, f.call arguments = .ok results ∧ results.length = table.outputWidth ∧
          ∀ j < table.outputWidth, (results[j]? = some true ↔
            (∀ row ∈ table.outputs, row[j]? = some true) ∨
              ∃ row, (arguments, row) ∈ table.inputs.zip table.outputs ∧ row[j]? = some true)) ∧
      (table.ConflictFree →
        ∀ arguments row, (arguments, row) ∈ table.inputs.zip table.outputs → f.call arguments = .ok row) := by
  have hregular := TruthTable.regular_ofRows h
  obtain ⟨f, hf, hmode, htabulates⟩ := exists_synthesize hregular mode
  exact ⟨f, hf, hmode, htabulates.arity_eq, htabulates.count, fun arguments hlength => htabulates.exists_call hlength,
    fun hfree arguments row hpair => htabulates.call_row hregular hfree hpair⟩

/-- Two rows contradict each other in the first column, and the second column is `1` throughout. -/
theorem synthesis_computes_the_table_conflicting :
    let table : TruthTable :=
      ⟨[[true, false], [true, false], [false, true]], [[false, true], [true, true], [false, true]]⟩
    TruthTable.ofRows [[.bit 1, .bit 0], [.bit 1, .bit 0], [.bool false, .bit 1]]
        [[.bit 0, .bit 1], [.bit 1, .bit 1], [.bit 0, .bit 1]] = .ok table ∧
      ∃ f, synthesize table .binary = .ok f ∧ f.call [true, false] = .ok [true, true] := by
  intro table
  have htable : TruthTable.ofRows [[.bit 1, .bit 0], [.bit 1, .bit 0], [.bool false, .bit 1]]
      [[.bit 0, .bit 1], [.bit 1, .bit 1], [.bit 0, .bit 1]] = .ok table := rfl
  obtain ⟨f, hf, -, -, -, hcall, -⟩ := synthesis_computes_the_table htable .binary
  obtain ⟨results, hresults, hcount, hvalue⟩ := hcall [true, false] rfl
  have hfirst : results[0]? = some true :=
    (hvalue 0 (by decide)).mpr (.inr ⟨[true, true], List.mem_cons_of_mem _ List.mem_cons_self, rfl⟩)
  have hsecond : results[1]? = some true := (hvalue 1 (by decide)).mpr (.inl (by decide))
  match results, hcount, hfirst, hsecond with
  | [_, _], _, rfl, rfl => exact ⟨htable, f, hf, hresults⟩

end VectorFunction

end Minterm
