import Mathlib.Algebra.Group.Action.Defs
import Minterm.Proofs.RelevantNames
import Minterm.Proofs.SimplifiedHeight
import Minterm.Proofs.Synthesis

/-! The height of synthesized columns. A minterm weighs at most two for each input, and simplification makes no
    sum heavier; so the height of a column is bounded by the size of its table. With two to four inputs
    there are at most sixteen terms however many rows the table has, and a simplified tree over a single
    name is a literal. So the columns of small tables have texts that the reader does not refuse. -/

namespace Minterm
namespace Expr

/-! ### Nesting -/

/-- On a path to a leaf there is at most one parenthesis for each node. -/
theorem nesting_le_height (style : Style) (e : Expr) : e.nesting style ≤ 2 * e.height := by
  induction e with
  | lit b | var name =>
    simp only [nesting, height]
    omega
  | not x ih =>
    have hwrap := (!x.isVar).toNat_le
    simp only [nesting, height]
    omega
  | and a b iha ihb =>
    have ha := a.isOr.toNat_le
    have hb := b.isOr.toNat_le
    simp only [nesting, height]
    omega
  | or a b iha ihb =>
    have ha := (style == .explicit && a.isAnd).toNat_le
    have hb := (style == .explicit && b.isAnd).toNat_le
    simp only [nesting, height]
    omega

/-! ### The weight of sums and products -/

theorem weight_foldl {connect : Expr → Expr → Expr} (h : ∀ a b, (connect a b).weight = a.weight + b.weight)
    (e : Expr) (es : List Expr) : (es.foldl connect e).weight = chainWeight (e :: es) := by
  induction es generalizing e with
  | nil => rfl
  | cons f fs ih => rw [List.foldl_cons, ih, chainWeight_cons, h, Nat.add_assoc, chainWeight_cons, chainWeight_cons]

theorem weight_andAll (es : List Expr) : (andAll es).weight = chainWeight es := by
  cases es with
  | nil => rfl
  | cons e es => exact weight_foldl (fun _ _ => rfl) e es

theorem weight_orAll (es : List Expr) : (orAll es).weight = chainWeight es := by
  cases es with
  | nil => rfl
  | cons e es => exact weight_foldl (fun _ _ => rfl) e es

theorem chainWeight_map_le {α : Type} {f : α → Expr} {xs : List α} {bound : Nat} (h : ∀ x ∈ xs, (f x).weight ≤ bound) :
    chainWeight (xs.map f) ≤ xs.length * bound := by
  have hsum := List.sum_le_card_nsmul ((xs.map f).map weight) bound (List.forall_mem_map.mpr (List.forall_mem_map.mpr h))
  rwa [List.length_map, List.length_map, smul_eq_mul] at hsum

theorem weight_literal_le (l : Literal) : l.toExpr.weight ≤ 2 := by
  obtain ⟨name, positive⟩ := l
  cases positive
  · exact Nat.le_refl 2
  · exact Nat.le_succ 1

theorem weight_product_le (ls : List Literal) : (andAll (ls.map Literal.toExpr)).weight ≤ ls.length * 2 := by
  rw [weight_andAll]
  exact chainWeight_map_le fun l _ => weight_literal_le l

theorem nesting_simplify_le (style : Style) (e : Expr) : e.simplify.nesting style ≤ max 2 (2 * e.weight) := by
  have hnesting := nesting_le_height style e.simplify
  have hheight := height_simplify_le e
  omega

/-! ### A single name -/

theorem not_apart_of_literals {name : String} {a b : Expr} (ha : a = .var name ∨ a = .not (.var name))
    (hb : b = .var name ∨ b = .not (.var name)) : ¬Apart a b := by
  rintro ⟨hne, hopp⟩
  rcases ha with rfl | rfl <;> rcases hb with rfl | rfl
  · exact hne rfl
  · simp [complements] at hopp
  · simp [complements] at hopp
  · exact hne rfl

/-- Over a single name nothing but its literals is reduced. -/
theorem Reduced.eq_literal {e : Expr} (h : Reduced e) {name : String} (hnames : ∀ other ∈ e.names, other = name) :
    e = .var name ∨ e = .not (.var name) := by
  induction h with
  | var other => exact .inl (congrArg Expr.var (hnames other (List.mem_singleton_self other)))
  | not _ hnot ih =>
    rcases ih hnames with rfl | rfl
    · exact .inr rfl
    · cases hnot
  | @and a b _ _ _ hmem hopp iha ihb =>
    obtain ⟨ha, hb⟩ := forall_mem_names_and.mp hnames
    have hself : a ∈ a.factors := by rcases iha ha with rfl | rfl <;> exact List.mem_singleton_self _
    exact absurd ⟨fun heq => hmem (heq ▸ hself), hopp a hself⟩ (not_apart_of_literals (iha ha) (ihb hb))
  | @or a b _ _ _ hmem hopp _ iha ihb =>
    obtain ⟨ha, hb⟩ := forall_mem_names_or.mp hnames
    have hself : a ∈ a.terms := by rcases iha ha with rfl | rfl <;> exact List.mem_singleton_self _
    exact absurd ⟨fun heq => hmem (heq ▸ hself), hopp a hself⟩ (not_apart_of_literals (iha ha) (ihb hb))

theorem Simplified.nesting_le_two {e : Expr} (h : Simplified e) {name : String} (hnames : ∀ other ∈ e.names, other = name)
    (style : Style) : e.nesting style ≤ 2 := by
  rcases h with h | h
  · cases e with
    | lit b => exact Nat.le_succ 1
    | _ => cases h
  · rcases h.eq_literal hnames with rfl | rfl
    · exact Nat.le_succ 1
    · exact Nat.le_refl 2

end Expr

open Minterm.Expr (chainWeight)

/-! ### Minimized sums -/

namespace KarnaughMap
variable {map : KarnaughMap}

theorem weight_implicant_le (map : KarnaughMap) (s : CellSet) : (map.implicant s).toExpr.weight ≤ map.vars.length * 2 := by
  have hlength : (map.literals s).length ≤ map.vars.length :=
    (List.length_filterMap_le _ _).trans_eq List.length_zipIdx
  exact (Expr.weight_product_le (map.literals s)).trans (Nat.mul_le_mul_right 2 hlength)

theorem length_implicants_le (map : KarnaughMap) : (map.implicants Cover.greedy).length ≤ map.ones.length := by
  have hchoices : (Cover.greedy map.candidates map.ones).length ≤ map.ones.length :=
    Cover.length_greedy_le fun s hs => (groupOf_of_mem_candidates s hs).subset
  rwa [implicants, List.length_mergeSort, List.length_map, Cover.length_chosen]

theorem length_ones_le {e : Expr} {vars : List String} (h : ofExpr e vars = .ok map) : map.ones.length ≤ 2 ^ map.vars.length := by
  have hcells : map.layout.cells.length = 2 ^ map.vars.length := by
    rw [← List.length_map map.layout.bits, (Layout.bits_cells_perm map.layout).length_eq, length_bitRows,
      Layout.rowVars_add_colVars (ofCount_layout h)]
  rw [← hcells]
  exact List.length_filter_le _ _

theorem nesting_chosenSum_le {e : Expr} {vars : List String} (h : ofExpr e vars = .ok map) (style : Style) :
    (map.chosenSum Cover.greedy).nesting style ≤ max 2 (2 * (2 ^ map.vars.length * (map.vars.length * 2))) := by
  have hterms : chainWeight ((map.implicants Cover.greedy).map Implicant.toExpr) ≤
      (map.implicants Cover.greedy).length * (map.vars.length * 2) := by
    refine Expr.chainWeight_map_le fun p hp => ?_
    obtain ⟨i, -, s, -, rfl⟩ := mem_implicants.mp hp
    exact map.weight_implicant_le s
  have hcount := map.length_implicants_le.trans (length_ones_le h)
  unfold chosenSum
  dsimp only
  split
  · exact (Nat.le_succ 1).trans (Nat.le_max_left _ _)
  · split
    · exact (Nat.le_succ 1).trans (Nat.le_max_left _ _)
    · have hnesting := Expr.nesting_simplify_le style (Expr.orAll ((map.implicants Cover.greedy).map Implicant.toExpr))
      rw [Expr.weight_orAll] at hnesting
      have hproduct := Nat.mul_le_mul_right (map.vars.length * 2) hcount
      omega

end KarnaughMap

/-! ### Columns -/

variable {names : List String} {inputs : List (List Bool)} {column : List Bool} {e : Expr}

theorem weight_minterm_le (names : List String) (row : List Bool) : (minterm names row).weight ≤ names.length * 2 := by
  have hlength : (names.zip row).length ≤ names.length := List.length_zip.trans_le (Nat.min_le_left _ _)
  have hproduct := Expr.weight_product_le ((names.zip row).map fun pair => ⟨pair.1, pair.2⟩)
  rw [List.length_map, List.map_map] at hproduct
  exact hproduct.trans (Nat.mul_le_mul_right 2 hlength)

theorem weight_mintermSum_le (names : List String) (inputs : List (List Bool)) (column : List Bool) :
    (mintermSum names inputs column).weight ≤ inputs.length * (names.length * 2) := by
  have hlength : ((inputs.zip column).filter (·.2)).length ≤ inputs.length :=
    (List.length_filter_le _ _).trans (List.length_zip.trans_le (Nat.min_le_left _ _))
  rw [mintermSum, Expr.weight_orAll]
  refine (Expr.chainWeight_map_le fun pair _ => ?_).trans (Nat.mul_le_mul_right _ hlength)
  exact weight_minterm_le names pair.1

/-- A column is a constant, a minimized sum of minterms or a simplified one. -/
theorem synthesizeColumn_cases (h : synthesizeColumn names inputs column = .ok e) :
    (∃ b, e = .lit b) ∨
      (2 ≤ names.length ∧ names.length ≤ 4) ∧ (mintermSum names inputs column).minimize names = .ok e ∨
      ¬(2 ≤ names.length ∧ names.length ≤ 4) ∧ (mintermSum names inputs column).simplify = e := by
  unfold synthesizeColumn at h
  split at h
  · exact .inl ⟨false, (Except.ok.inj h).symm⟩
  · split at h
    · exact .inl ⟨true, (Except.ok.inj h).symm⟩
    · dsimp only at h
      split at h
      · rename_i hcount
        exact .inr (.inl ⟨hcount, h⟩)
      · rename_i hcount
        exact .inr (.inr ⟨hcount, Except.ok.inj h⟩)

theorem simplified_synthesizeColumn (h : synthesizeColumn names inputs column = .ok e) : e.Simplified := by
  rcases synthesizeColumn_cases h with ⟨b, rfl⟩ | ⟨-, hmin⟩ | ⟨-, rfl⟩
  · exact .lit b
  · exact Expr.simplified_minimizeWith hmin
  · exact Expr.simplified_simplify _

theorem names_synthesizeColumn (h : synthesizeColumn names inputs column = .ok e) : e.names ⊆ names := by
  rcases synthesizeColumn_cases h with ⟨b, rfl⟩ | ⟨-, hmin⟩ | ⟨-, rfl⟩
  · exact List.nil_subset _
  · exact Expr.names_minimizeWith hmin
  · exact List.Subset.trans (Expr.names_simplifyWithin_subset _ _) (names_mintermSum names inputs column)

/-- A column over at most four inputs is nested 256 levels deep at most, whatever the number of rows. -/
theorem nesting_synthesizeColumn_le (h : synthesizeColumn names inputs column = .ok e) (hcount : names.length ≤ 4)
    (style : Style) : e.nesting style ≤ 256 := by
  rcases synthesizeColumn_cases h with ⟨b, rfl⟩ | ⟨hrange, hmin⟩ | ⟨hrange, rfl⟩
  · exact Nat.le_of_ble_eq_true rfl
  · rcases Expr.minimizeWith_cases hmin with ⟨rfl, -⟩ | ⟨map, hmap, rfl⟩
    · cases hrange.1
    · have hnesting := KarnaughMap.nesting_chosenSum_le hmap style
      obtain ⟨rfl, -⟩ := KarnaughMap.ofExpr_eq_ok hmap
      obtain h2 | h3 | h4 : map.vars.length = 2 ∨ map.vars.length = 3 ∨ map.vars.length = 4 := by omega
      · rw [h2] at hnesting
        omega
      · rw [h3] at hnesting
        omega
      · rw [h4] at hnesting
        omega
  · have hsimplified := Expr.simplified_simplify (mintermSum names inputs column)
    have hsingle : ∃ name, ∀ other ∈ names, other = name := by
      match names, hcount, hrange with
      | [], _, _ => exact ⟨"", nofun⟩
      | [name], _, _ => exact ⟨name, fun _ => List.mem_singleton.mp⟩
      | _ :: _ :: _, hcount, hrange => exact absurd ⟨Nat.le_add_left _ _, hcount⟩ hrange
    obtain ⟨name, hname⟩ := hsingle
    have hnesting := hsimplified.nesting_le_two (fun other hother => hname other (names_synthesizeColumn h hother)) style
    omega

/-- With more inputs the depth is bounded by the number of cells of the table. -/
theorem nesting_synthesizeColumn_le_cells (h : synthesizeColumn names inputs column = .ok e) (hcount : 4 < names.length)
    (style : Style) : e.nesting style ≤ max 2 (4 * (inputs.length * names.length)) := by
  rcases synthesizeColumn_cases h with ⟨b, rfl⟩ | ⟨hrange, -⟩ | ⟨-, rfl⟩
  · exact (Nat.le_succ 1).trans (Nat.le_max_left _ _)
  · exact absurd hrange.2 (Nat.not_le.mpr hcount)
  · have hnesting := Expr.nesting_simplify_le style (mintermSum names inputs column)
    have hweight := weight_mintermSum_le names inputs column
    rw [← Nat.mul_assoc] at hweight
    omega

end Minterm
