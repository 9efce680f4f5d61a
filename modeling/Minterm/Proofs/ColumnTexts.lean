import Minterm.Proofs.SynthesizedHeight

/-! Columns as texts. The name of a column is an identifier, but two of these words stand for constants: they name
    the columns 364238 and 2768042, and in a text they are not the variables of these columns. So the
    text of a synthesized column is read as its tree if it does not mention these two columns and is not nested
    too deep. No column of a table with at most four inputs, or with few cells, is an exception. -/

namespace Minterm
open Minterm.Expr (ofText maxDepth)

/-! ### Names -/

theorem isIdentChar_of_between {c : Char} (h : 'a' ≤ c ∧ c ≤ 'z') : Token.isIdentChar c = true := by
  have hlower : c.isLower = true := Bool.and_eq_true_iff.mpr ⟨decide_eq_true h.1, decide_eq_true h.2⟩
  change (((c.isUpper || c.isLower) || c.isDigit) || c == '_') = true
  rw [hlower, Bool.or_true, Bool.true_or, Bool.true_or]

theorem spellable_columnName (i : Nat) : (Token.ident (columnName i)).Spellable := by
  refine ⟨columnName_ne_empty i, fun c hc => ?_⟩
  rw [toList_columnName] at hc
  exact isIdentChar_of_between (between_of_mem_columnLetters c hc)

theorem columnName_eq_true_iff {i : Nat} : columnName i = "true" ↔ i = 364238 := by
  have htrue : columnName 364238 = "true" := by decide +kernel
  rw [← htrue]
  exact ⟨columnName_injective, congrArg columnName⟩

theorem columnName_eq_false_iff {i : Nat} : columnName i = "false" ↔ i = 2768042 := by
  have hfalse : columnName 2768042 = "false" := by decide +kernel
  rw [← hfalse]
  exact ⟨columnName_injective, congrArg columnName⟩

theorem leaf_columnName (i : Nat) :
    Parser.leaf (columnName i) =
      if i = 364238 then .lit true else if i = 2768042 then .lit false else .var (columnName i) := by
  rw [Parser.leaf]
  simp only [columnName_eq_true_iff, columnName_eq_false_iff]

theorem ofText_columnName (i : Nat) : ofText (columnName i) = .ok (Parser.leaf (columnName i)) := by
  have hnames : (Expr.var (columnName i)).Spellable := List.forall_mem_singleton.mpr (spellable_columnName i)
  exact Expr.ofText_text_reread (e := .var (columnName i)) trivial hnames

/-! ### Columns -/

namespace VectorFunction
variable {table : TruthTable} {mode : Mode} {f : VectorFunction} {e : Expr}

theorem exists_column (h : synthesize table mode = .ok f) (he : e ∈ f.outputs) :
    ∃ column, synthesizeColumn f.inputs table.inputs column = .ok e := by
  have hcolumns := mapM_eq_ok.mp (of_synthesize h).2
  obtain ⟨column, -, hcolumn⟩ := List.mem_map.mp (hcolumns ▸ List.mem_map_of_mem he)
  exact ⟨column, hcolumn⟩

theorem exists_columnName_of_mem_names (h : synthesize table mode = .ok f) (he : e ∈ f.outputs) {name : String}
    (hname : name ∈ e.names) : ∃ i < table.inputWidth, columnName i = name := by
  obtain ⟨column, hcolumn⟩ := exists_column h he
  have hinput := names_synthesizeColumn hcolumn hname
  rw [(of_synthesize h).1] at hinput
  obtain ⟨i, hi, rfl⟩ := List.mem_map.mp hinput
  exact ⟨i, List.mem_range.mp hi, rfl⟩

theorem ofText_column (h : synthesize table mode = .ok f) (he : e ∈ f.outputs) :
    ofText e.text = if e.nesting .canonical ≤ maxDepth then .ok e.reread else .error (.tooDeep maxDepth) := by
  obtain ⟨column, hcolumn⟩ := exists_column h he
  refine Expr.ofText_text_reread (simplified_synthesizeColumn hcolumn).leftNested fun name hname => ?_
  obtain ⟨i, -, rfl⟩ := exists_columnName_of_mem_names h he hname
  exact spellable_columnName i

theorem reread_column (h : synthesize table mode = .ok f) (he : e ∈ f.outputs) (hwidth : table.inputWidth ≤ 364238) :
    e.reread = e := by
  refine Expr.reread_eq_iff.mpr fun name hname => ?_
  obtain ⟨i, hi, rfl⟩ := exists_columnName_of_mem_names h he hname
  rw [Ne, Ne, columnName_eq_true_iff, columnName_eq_false_iff]
  omega

theorem nesting_column_le (h : synthesize table mode = .ok f) (he : e ∈ f.outputs)
    (hsmall : table.inputWidth ≤ 4 ∨ 4 * (table.rows * table.inputWidth) ≤ maxDepth) : e.nesting .canonical ≤ maxDepth := by
  obtain ⟨column, hcolumn⟩ := exists_column h he
  have hlength := length_inputs h
  rcases Nat.lt_or_ge 4 f.inputs.length with hmany | hfew
  · have hnesting := nesting_synthesizeColumn_le_cells hcolumn hmany .canonical
    have hcells : 4 * (table.rows * table.inputWidth) ≤ maxDepth := hsmall.resolve_left (by omega)
    rw [hlength] at hnesting
    exact hnesting.trans (Nat.max_le.mpr ⟨by decide, hcells⟩)
  · exact (nesting_synthesizeColumn_le hcolumn hfew .canonical).trans (by decide)

theorem inputWidth_le (hsmall : table.inputWidth ≤ 4 ∨ 4 * (table.rows * table.inputWidth) ≤ maxDepth) :
    table.inputWidth ≤ maxDepth := by
  rcases hsmall with hfew | hcells
  · exact hfew.trans (by decide)
  · rcases Nat.eq_zero_or_pos table.rows with hzero | hpos
    · rw [TruthTable.inputWidth, List.length_eq_zero_iff.mp hzero]
      exact Nat.zero_le _
    · have hwidth := Nat.le_mul_of_pos_left table.inputWidth hpos
      omega

/-- The name of every column is read, as a variable of that name except for the columns 364238 and 2768042, whose
    names are the words for constants. The text of a synthesized column is read if it is not nested deeper than
    the limit; then it is read as the tree of the column exactly if neither of these two names occurs in it, and
    with the constants in their places otherwise. Neither occurs in tables with fewer inputs, and with at most
    four inputs, or with few cells in all, the limit is not met, so that every column is read back. -/
theorem column_texts_read_back (i : Nat) (table : TruthTable) (mode : Mode) :
    ofText (columnName i) =
      .ok (if i = 364238 then .lit true else if i = 2768042 then .lit false else .var (columnName i)) ∧
    ∀ f, synthesize table mode = .ok f → ∀ e ∈ f.outputs,
      ofText e.text = (if e.nesting .canonical ≤ maxDepth then .ok e.reread else .error (.tooDeep maxDepth)) ∧
      (e.reread = e ↔ "true" ∉ e.names ∧ "false" ∉ e.names) ∧
      (table.inputWidth ≤ 364238 → e.reread = e) ∧
      (table.inputWidth ≤ 4 ∨ 4 * (table.rows * table.inputWidth) ≤ maxDepth → ofText e.text = .ok e) := by
  refine ⟨by rw [ofText_columnName, leaf_columnName], fun f hf e he => ?_⟩
  have hread := ofText_column hf he
  refine ⟨hread, ?_, reread_column hf he, fun hsmall => ?_⟩
  · rw [Expr.reread_eq_iff]
    constructor
    · exact fun h => ⟨fun hmem => (h _ hmem).1 rfl, fun hmem => (h _ hmem).2 rfl⟩
    · exact fun h name hname => ⟨fun heq => h.1 (heq ▸ hname), fun heq => h.2 (heq ▸ hname)⟩
  · have hwidth : table.inputWidth ≤ 364238 := (inputWidth_le hsmall).trans (by decide)
    rw [hread, if_pos (nesting_column_le hf he hsmall), reread_column hf he hwidth]

/-- The first column that is no variable, the next one, and the table of a negation. -/
theorem column_texts_read_back_negated :
    let table : TruthTable := ⟨[[false], [true]], [[true], [false]]⟩
    let e : Expr := .not (.var "a")
    ofText "true" = .ok (.lit true) ∧ ofText "truf" = .ok (.var "truf") ∧
      synthesize table .boolean = .ok ⟨["a"], [e], .boolean⟩ ∧ table.inputWidth ≤ 4 ∧ ofText "!a" = .ok e := by
  intro table e
  have htrue : columnName 364238 = "true" := by decide +kernel
  have hnext : columnName 364239 = "truf" := by decide +kernel
  obtain ⟨hliteral, hcolumns⟩ := column_texts_read_back 364238 table .boolean
  obtain ⟨hvariable, -⟩ := column_texts_read_back 364239 table .boolean
  rw [htrue, if_pos rfl] at hliteral
  rw [hnext, if_neg (by decide), if_neg (by decide)] at hvariable
  have hsynthesize : synthesize table .boolean = .ok ⟨["a"], [e], .boolean⟩ := by decide +kernel
  obtain ⟨-, -, -, hread⟩ := hcolumns _ hsynthesize e (List.mem_singleton_self e)
  exact ⟨hliteral, hvariable, hsynthesize, by decide, hread (.inl (by decide))⟩

end VectorFunction

/-! ### A column that is nested too deep -/

/-- The variables of a list of names, joined by `&`. -/
def conjunction (names : List String) : Expr := Expr.andAll (names.map .var)

theorem minterm_replicate (names : List String) : minterm names (List.replicate names.length true) = conjunction names := by
  have hliterals : (names.zip (List.replicate names.length true)).map (fun pair => Literal.toExpr ⟨pair.1, pair.2⟩) =
      names.map .var := by
    induction names with
    | nil => rfl
    | cons name names ih => exact congrArg (Expr.var name :: ·) ih
  exact congrArg Expr.andAll hliterals

theorem reduced_conjunction {names : List String} (hne : names ≠ []) (h : names.Nodup) : (conjunction names).Reduced := by
  match names, hne with
  | name :: names, _ =>
    have hvars : ∀ f ∈ names.map Expr.var, f.Reduced ∧ f.isAnd = false :=
      List.forall_mem_map.mpr fun other _ => ⟨.var other, rfl⟩
    refine (Expr.foldl_conj_eq (.var name) hvars ?_).2
    rw [Expr.factors_eq_singleton rfl, List.singleton_append, ← List.map_cons, List.pairwise_map]
    exact h.imp fun hne => ⟨fun heq => hne (Expr.var.inj heq), rfl⟩

/-- A chain of variables is as high as it is long, and it has no parentheses. -/
theorem nesting_foldl_and_var {e : Expr} (hor : e.isOr = false) (h : e.nesting .canonical = e.height) (names : List String) :
    ((names.map Expr.var).foldl .and e).nesting .canonical = e.height + names.length := by
  induction names generalizing e with
  | nil => exact h
  | cons name names ih =>
    have hpos := e.height_pos
    have hheight : (e.and (.var name)).height = e.height + 1 := by
      simp only [Expr.height]
      omega
    have hnesting : (e.and (.var name)).nesting .canonical = (e.and (.var name)).height := by
      rw [Expr.nesting, h, hor, hheight, Expr.nesting, Expr.height]
      simp only [Expr.isOr, Bool.toNat_false]
      omega
    rw [List.map_cons, List.foldl_cons, ih rfl hnesting, hheight, List.length_cons, Nat.add_assoc, Nat.add_comm 1]

theorem nesting_conjunction {names : List String} (hne : names ≠ []) : (conjunction names).nesting .canonical = names.length := by
  match names, hne with
  | name :: names, _ => exact (nesting_foldl_and_var rfl rfl names).trans (Nat.add_comm 1 _)

namespace VectorFunction

/-- The table of the conjunction of `n` inputs, as far as two rows tell. -/
def conjunctionTable (n : Nat) : TruthTable :=
  ⟨[List.replicate n true, List.replicate n false], [[true], [false]]⟩

theorem synthesize_conjunctionTable {n : Nat} (h : 4 < n) (mode : Mode) :
    synthesize (conjunctionTable n) mode =
      .ok ⟨(List.range n).map columnName, [conjunction ((List.range n).map columnName)], mode⟩ := by
  let names := (List.range n).map columnName
  have hlength : names.length = n := length_columnNames n
  have hne : names ≠ [] := List.ne_nil_of_length_pos (by omega)
  have hsum : mintermSum names (conjunctionTable n).inputs [true, false] = conjunction names := by
    rw [← minterm_replicate, hlength]
    rfl
  have hcolumn : synthesizeColumn names (conjunctionTable n).inputs [true, false] = .ok (conjunction names) := by
    have hsimplified := (reduced_conjunction hne (nodup_columnNames n)).simplified
    have hsimplify : (conjunction names).simplify = conjunction names := hsimplified.simplifyWithin_eq _
    rw [synthesizeColumn, if_neg (by decide), if_neg (by decide), if_neg (by omega)]
    exact congrArg Except.ok ((congrArg Expr.simplify hsum).trans hsimplify)
  have hcolumns : ((List.range (conjunctionTable n).outputWidth).map (conjunctionTable n).outputColumn).mapM
      (synthesizeColumn names (conjunctionTable n).inputs) = .ok [conjunction names] :=
    mapM_eq_ok.mpr (congrArg (fun x => [x]) hcolumn)
  have hwidth : (conjunctionTable n).inputWidth = n := List.length_replicate
  rw [synthesize, hwidth, hcolumns]
  rfl

/-- With more inputs than the limit has levels, the text of the column is refused. -/
theorem ofText_conjunctionTable {n : Nat} (h : maxDepth < n) (mode : Mode) :
    ∃ f e, synthesize (conjunctionTable n) mode = .ok f ∧ e ∈ f.outputs ∧ ofText e.text = .error (.tooDeep maxDepth) := by
  have hsynthesize := synthesize_conjunctionTable ((show 4 < maxDepth by decide).trans h) mode
  have hlength := length_columnNames n
  have hne : (List.range n).map columnName ≠ [] := List.ne_nil_of_length_pos (by omega)
  refine ⟨_, _, hsynthesize, List.mem_singleton_self _, ?_⟩
  rw [ofText_column hsynthesize (List.mem_singleton_self _), nesting_conjunction hne, hlength]
  exact if_neg (Nat.not_le.mpr h)

/-- The names of the columns 364238 and 2768042 are no variables, and the text of a column over 513 inputs is
    refused. -/
theorem column_texts_not_read_back :
    (¬∀ i, ofText (columnName i) = .ok (.var (columnName i))) ∧
      columnName 364238 = "true" ∧ ofText (columnName 364238) = .ok (.lit true) ∧
      columnName 2768042 = "false" ∧ ofText (columnName 2768042) = .ok (.lit false) ∧
      ∃ f e, synthesize (conjunctionTable 513) .boolean = .ok f ∧ e ∈ f.outputs ∧
        ofText e.text = .error (.tooDeep maxDepth) := by
  have htrue : ofText (columnName 364238) = .ok (.lit true) := by rw [ofText_columnName, leaf_columnName, if_pos rfl]
  have hfalse : ofText (columnName 2768042) = .ok (.lit false) := by
    rw [ofText_columnName, leaf_columnName, if_neg (by decide), if_pos rfl]
  refine ⟨fun hall => ?_, columnName_eq_true_iff.mpr rfl, htrue, columnName_eq_false_iff.mpr rfl, hfalse,
    ofText_conjunctionTable (by decide) .boolean⟩
  cases htrue.symm.trans (hall 364238)

end VectorFunction

end Minterm
