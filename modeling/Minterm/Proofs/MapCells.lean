import Minterm.Karnaugh.Map
import Minterm.Proofs.BitRows
import Minterm.Proofs.Evaluation
import Minterm.Proofs.Lists

/-! The cells of a map. Every row of bits of the right length stands at exactly one cell, since a Gray code
    lists all rows of its length once; so every assignment of the variables has a cell, and the value
    there is the value of the expression. A list that names a variable twice has cells that belong to no
    assignment. -/

namespace Minterm

namespace Layout

/-! ### Layouts -/

theorem ofCount_eq_ok {n : Nat} {layout : Layout} :
    ofCount n = .ok layout ↔
      n = 2 ∧ layout = ⟨1, 1⟩ ∨ n = 3 ∧ layout = ⟨1, 2⟩ ∨ n = 4 ∧ layout = ⟨2, 2⟩ := by
  unfold ofCount
  split <;> simp_all [eq_comm]

theorem exists_ofCount {n : Nat} : (∃ layout, ofCount n = .ok layout) ↔ 2 ≤ n ∧ n ≤ 4 := by
  constructor
  · rintro ⟨layout, h⟩
    rcases ofCount_eq_ok.mp h with ⟨rfl, -⟩ | ⟨rfl, -⟩ | ⟨rfl, -⟩ <;> decide
  · rintro ⟨hlow, hhigh⟩
    obtain rfl | rfl | rfl : n = 2 ∨ n = 3 ∨ n = 4 := by omega
    all_goals exact ⟨_, rfl⟩

theorem rowVars_add_colVars {n : Nat} {layout : Layout} (h : ofCount n = .ok layout) :
    layout.rowVars + layout.colVars = n := by
  rcases ofCount_eq_ok.mp h with ⟨rfl, rfl⟩ | ⟨rfl, rfl⟩ | ⟨rfl, rfl⟩ <;> rfl

variable {layout : Layout}

theorem mem_cells {cell : Cell} : cell ∈ layout.cells ↔ cell.1 < layout.rows ∧ cell.2 < layout.cols := by
  obtain ⟨r, c⟩ := cell
  simp [cells]

theorem rowCode_mem {cell : Cell} (h : cell ∈ layout.cells) : layout.rowCode cell ∈ layout.rowCodes := by
  rw [rowCode, List.getElem?_eq_getElem (mem_cells.mp h).1]
  exact List.getElem_mem _

theorem map_bits_cells (layout : Layout) :
    layout.cells.map layout.bits = layout.rowCodes.flatMap fun front => layout.colCodes.map (front ++ ·) := by
  have hrow (r : Nat) : ((List.range layout.cols).map fun c => (r, c)).map layout.bits =
      layout.colCodes.map ((layout.rowCodes[r]?.getD []) ++ ·) := by
    conv_rhs => rw [← map_getD_range layout.colCodes []]
    rw [List.map_map, List.map_map]
    rfl
  rw [cells, List.map_flatMap]
  simp only [hrow]
  conv_rhs => rw [← map_getD_range layout.rowCodes [], List.flatMap_map]
  rfl

theorem bits_cells_perm (layout : Layout) :
    (layout.cells.map layout.bits).Perm (bitRows (layout.rowVars + layout.colVars)) := by
  rw [map_bits_cells, bitRows_add]
  exact (grayCode_perm _).flatMap fun front _ => (grayCode_perm _).map _

/-- The bits of all variables tell the cells apart. -/
theorem eq_of_bits_eq {layout : Layout} {cell other : Cell} (hcell : cell ∈ layout.cells) (hother : other ∈ layout.cells)
    (h : layout.bits cell = layout.bits other) : cell = other :=
  List.inj_on_of_nodup_map ((bits_cells_perm layout).nodup_iff.mpr (nodup_bitRows _)) hcell hother h

theorem length_bits {cell : Cell} (h : cell ∈ layout.cells) :
    (layout.bits cell).length = layout.rowVars + layout.colVars :=
  mem_bitRows.mp (layout.bits_cells_perm.mem_iff.mp (List.mem_map_of_mem h))

theorem getElem?_bits {cell : Cell} (h : cell ∈ layout.cells) {i : Nat} (hi : i < layout.rowVars + layout.colVars) :
    (layout.bits cell)[i]? = some (layout.bit cell i) := by
  rw [bit, List.getElem?_eq_getElem (by rwa [length_bits h]), Option.getD_some]

theorem bits_eq_iff {cell : Cell} {row : List Bool} (h : cell ∈ layout.cells)
    (hrow : row.length = layout.rowVars + layout.colVars) :
    layout.bits cell = row ↔ ∀ i < layout.rowVars + layout.colVars, row[i]? = some (layout.bit cell i) := by
  constructor
  · rintro rfl i hi
    exact getElem?_bits h hi
  · intro hbits
    refine List.ext_getElem? fun i => ?_
    by_cases hi : i < layout.rowVars + layout.colVars
    · rw [getElem?_bits h hi, hbits i hi]
    · rw [List.getElem?_eq_none (by rw [length_bits h]; omega), List.getElem?_eq_none (by omega)]

/-- Every row of bits stands at some cell. -/
theorem exists_cell {bits : List Bool} (h : bits.length = layout.rowVars + layout.colVars) :
    ∃ cell ∈ layout.cells, layout.bits cell = bits :=
  List.mem_map.mp (layout.bits_cells_perm.mem_iff.mpr (mem_bitRows.mpr h))

/-- One bit of a cell may be changed. -/
theorem exists_cell_set {cell : Cell} (h : cell ∈ layout.cells) (i : Nat) (b : Bool) :
    ∃ other ∈ layout.cells, layout.bits other = (layout.bits cell).set i b :=
  exists_cell (by rw [List.length_set, length_bits h])

theorem length_codes {n : Nat} (h : ofCount n = .ok layout) {rowCode colCode : List Bool}
    (hr : rowCode ∈ layout.rowCodes) (hc : colCode ∈ layout.colCodes) : (rowCode ++ colCode).length = n := by
  rw [List.length_append, mem_grayCode.mp hr, mem_grayCode.mp hc, rowVars_add_colVars h]

end Layout

/-! ### Bits of names -/

theorem firstBit?_cons (other : String) (vars : List String) (b : Bool) (bits : List Bool) (name : String) :
    firstBit? (other :: vars) (b :: bits) name = if name = other then some b else firstBit? vars bits name :=
  Bindings.value?_cons (other, b) (vars.zip bits) name

/-- A name has the bit of its first position. -/
theorem firstBit?_eq {vars : List String} {bits : List Bool} (h : bits.length = vars.length) (name : String) :
    firstBit? vars bits name = bits[vars.idxOf name]? := by
  induction vars generalizing bits with
  | nil => rw [List.eq_nil_of_length_eq_zero h]; rfl
  | cons other vars ih =>
    cases bits with
    | nil => cases h
    | cons b bits =>
      rw [firstBit?_cons, ih (Nat.succ.inj h)]
      split
      · rename_i hname
        simp [hname]
      · rename_i hname
        rw [List.idxOf_cons_ne _ (Ne.symm hname), List.getElem?_cons_succ]

/-- The bit at a later position of a name is not read. -/
theorem firstBit?_set {vars : List String} {bits : List Bool} (h : bits.length = vars.length) {i : Nat} {name : String}
    (hname : vars[i]? = some name) (hlater : vars.idxOf name ≠ i) (b : Bool) :
    firstBit? vars (bits.set i b) = firstBit? vars bits := by
  funext other
  have hne : i ≠ vars.idxOf other := fun heq => hlater <| by
    have hi := (List.getElem?_eq_some_iff.mp hname).1
    have hother := List.getElem?_idxOf (List.idxOf_lt_length_iff.mp (heq ▸ hi))
    rw [← heq, hname] at hother
    rw [Option.some.inj hother, ← heq]
  rw [firstBit?_eq h, firstBit?_eq (by rw [List.length_set, h]), List.getElem?_set_ne hne]

/-- To set the bit at the first position of a name is to bind the name to it. -/
theorem firstBit?_set_idxOf {vars : List String} {bits : List Bool} (h : bits.length = vars.length) {name : String}
    (hname : name ∈ vars) (b : Bool) (other : String) :
    firstBit? vars (bits.set (vars.idxOf name) b) other = if other = name then some b else firstBit? vars bits other := by
  rw [firstBit?_eq (by rw [List.length_set, h])]
  split
  · rename_i heq
    rw [heq, List.getElem?_set_self (by rwa [h, List.idxOf_lt_length_iff])]
  · rename_i hne
    have hidx : vars.idxOf name ≠ vars.idxOf other := fun heq => hne ((List.idxOf_inj hname).mp heq).symm
    rw [List.getElem?_set_ne hidx, firstBit?_eq h]

theorem isSome_firstBit? {vars : List String} {bits : List Bool} (h : bits.length = vars.length) (name : String) :
    (firstBit? vars bits name).isSome ↔ name ∈ vars := by
  rw [firstBit?_eq h, isSome_getElem?, h, List.idxOf_lt_length_iff]

theorem firstBit?_map (values : String → Bool) {vars : List String} {name : String} (h : name ∈ vars) :
    firstBit? vars (vars.map values) name = some (values name) := by
  rw [firstBit?_eq (List.length_map _), List.getElem?_map, List.getElem?_idxOf h, Option.map_some]

/-- The bits of different names, in the order of the names, are the row itself. -/
theorem map_firstBit? {vars : List String} {bits : List Bool} (hnodup : vars.Nodup) (h : bits.length = vars.length) :
    vars.map (fun name => (firstBit? vars bits name).getD false) = bits := by
  induction vars generalizing bits with
  | nil => exact (List.length_eq_zero_iff.mp h).symm
  | cons name vars ih =>
    cases bits with
    | nil => cases h
    | cons b bits =>
      obtain ⟨hnew, hnodup⟩ := List.nodup_cons.mp hnodup
      have hfirst : firstBit? (name :: vars) (b :: bits) name = some b := by rw [firstBit?_cons, if_pos rfl]
      have hrest : ∀ other ∈ vars, firstBit? (name :: vars) (b :: bits) other = firstBit? vars bits other :=
        fun other hother => by rw [firstBit?_cons, if_neg (ne_of_mem_of_not_mem hother hnew)]
      rw [List.map_cons, hfirst, Option.getD_some, List.map_congr_left fun other hother => by rw [hrest other hother],
        ih hnodup (Nat.succ.inj h)]

namespace KarnaughMap

/-! ### Maps of expressions -/

variable {e : Expr} {vars : List String} {map : KarnaughMap}

theorem ofExpr_of_layout {layout : Layout} (h : Layout.ofCount vars.length = .ok layout) :
    ofExpr e vars = (layout.rowCodes.mapM fun rowCode => layout.colCodes.mapM fun colCode =>
      e.eval (firstBit? vars (rowCode ++ colCode))).map (KarnaughMap.mk vars layout) := by
  rw [ofExpr, h]
  rfl

/-- The value at a cell is that of the expression under the bits of the cell. -/
theorem ofExpr_eq_ok (h : ofExpr e vars = .ok map) :
    map.vars = vars ∧ Layout.ofCount vars.length = .ok map.layout ∧
      ∀ cell ∈ map.layout.cells, e.eval (firstBit? vars (map.layout.bits cell)) = .ok (map.value cell) := by
  obtain ⟨layout, hlayout, h⟩ := bind_eq_ok h
  obtain ⟨grid, hgrid, h⟩ := bind_eq_ok h
  obtain rfl := Except.ok.inj h
  refine ⟨rfl, hlayout, fun cell hcell => ?_⟩
  obtain ⟨hr, hc⟩ := Layout.mem_cells.mp hcell
  obtain ⟨row, hrow, hvalues⟩ := getElem?_mapM hgrid hr
  obtain ⟨b, hb, hvalue⟩ := getElem?_mapM hvalues hc
  rw [value, hrow, Option.bind_some, hb, Option.getD_some, ← hvalue, Layout.bits, Layout.rowCode, Layout.colCode]
  rw [List.getElem?_eq_getElem hr, List.getElem?_eq_getElem hc]
  rfl

theorem ofCount_layout (h : ofExpr e vars = .ok map) : Layout.ofCount map.vars.length = .ok map.layout :=
  (ofExpr_eq_ok h).1 ▸ (ofExpr_eq_ok h).2.1

theorem length_bits (h : ofExpr e vars = .ok map) {cell : Cell} (hcell : cell ∈ map.layout.cells) :
    (map.layout.bits cell).length = map.vars.length :=
  (Layout.length_bits hcell).trans (Layout.rowVars_add_colVars (ofCount_layout h))

theorem exists_ofExpr :
    (∃ map, ofExpr e vars = .ok map) ↔ (2 ≤ vars.length ∧ vars.length ≤ 4) ∧ ∀ name ∈ e.names, name ∈ vars := by
  constructor
  · rintro ⟨map, h⟩
    obtain ⟨-, hlayout, hvalue⟩ := ofExpr_eq_ok h
    have hlength : (vars.map fun _ => false).length = map.layout.rowVars + map.layout.colVars := by
      rw [List.length_map, Layout.rowVars_add_colVars hlayout]
    obtain ⟨cell, hcell, hbits⟩ := Layout.exists_cell hlength
    have hbound := Expr.bound_of_eval (hvalue cell hcell)
    refine ⟨Layout.exists_ofCount.mp ⟨_, hlayout⟩, fun name hn => ?_⟩
    exact (isSome_firstBit? (by rw [hbits, List.length_map]) name).mp (hbound name hn)
  · rintro ⟨hcount, hnames⟩
    obtain ⟨layout, hlayout⟩ := Layout.exists_ofCount.mpr hcount
    have heval (rowCode : List Bool) (hr : rowCode ∈ layout.rowCodes) (colCode : List Bool) (hc : colCode ∈ layout.colCodes) :
        ∃ b, e.eval (firstBit? vars (rowCode ++ colCode)) = .ok b := by
      refine ⟨_, Expr.eval_of_bound fun name hn => ?_⟩
      exact (isSome_firstBit? (Layout.length_codes hlayout hr hc) name).mpr (hnames name hn)
    obtain ⟨grid, hgrid⟩ := exists_mapM_eq_ok.mpr fun rowCode hr => exists_mapM_eq_ok.mpr (heval rowCode hr)
    exact ⟨_, (ofExpr_of_layout hlayout).trans (map_eq_ok.mpr ⟨grid, hgrid, rfl⟩)⟩

theorem exists_cell_of_assignment (h : ofExpr e vars = .ok map) (values : String → Bool) :
    ∃ cell ∈ map.layout.cells, map.layout.bits cell = vars.map values := by
  refine Layout.exists_cell ?_
  rw [List.length_map, Layout.rowVars_add_colVars (ofExpr_eq_ok h).2.1]

/-- At the cell of an assignment stands the value under it. -/
theorem value_eq_denote (h : ofExpr e vars = .ok map) {cell : Cell} {values : String → Bool}
    (hcell : cell ∈ map.layout.cells) (hbits : map.layout.bits cell = vars.map values) :
    map.value cell = e.denote values := by
  have hvalue := (ofExpr_eq_ok h).2.2 cell hcell
  obtain ⟨hbound, hdenote⟩ := Expr.eval_eq_ok_iff.mp hvalue
  rw [← hdenote]
  refine Expr.denote_congr fun name hn => ?_
  rw [hbits] at hbound ⊢
  rw [firstBit?_map values ((isSome_firstBit? (by simp) name).mp (hbound name hn))]
  rfl

theorem mem_ones {cell : Cell} : cell ∈ map.ones ↔ cell ∈ map.layout.cells ∧ map.value cell = true := by
  rw [ones, List.mem_filter]

end KarnaughMap
end Minterm
