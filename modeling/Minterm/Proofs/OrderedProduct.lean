import Minterm.Proofs.Distribution
import Minterm.Proofs.Lists
import Minterm.Proofs.SimplifyRules

/-! Distribution as an ordered product. One may split the left operand as long as the outer connective joins it
    and the right one after that: this makes the same tree (`splitting_eq`). Its parts stand row by row. If
    the right operand has `n` parts, then part `i` of the left operand and part `j` of the right one meet in
    part `i * n + j`, however the two operands nest; so no place is left out and none is taken twice. -/

namespace Minterm.Form

variable {form : Form}

/-! ### Splitting the operands -/

/-- Distribution by splitting one operand at a time: the left one as long as the outer connective joins it,
    then the right one, with a copy of the other operand on each side. -/
def splitting : Form → Expr → Expr → Expr
  | .dnf, .or a₁ a₂, b => .or (splitting .dnf a₁ b) (splitting .dnf a₂ b)
  | .dnf, a, .or b₁ b₂ => .or (splitting .dnf a b₁) (splitting .dnf a b₂)
  | .dnf, a, b => .and a b
  | .cnf, .and a₁ a₂, b => .and (splitting .cnf a₁ b) (splitting .cnf a₂ b)
  | .cnf, a, .and b₁ b₂ => .and (splitting .cnf a b₁) (splitting .cnf a b₂)
  | .cnf, a, b => .or a b
termination_by _ a b => a.size + b.size
decreasing_by all_goals simp only [Expr.size]; omega

theorem combine_part_outer {a : Expr} (h : form.isOuter a = false) (b₁ b₂ : Expr) :
    form.combine a (form.outer b₁ b₂) = form.outer (form.combine a b₁) (form.combine a b₂) := by
  simp only [combine, mapParts_of_isOuter h, mapParts_outer]

theorem splitting_eq (form : Form) (a b : Expr) : form.splitting a b = form.combine a b := by
  fun_induction splitting form a b with
  | case1 a₁ a₂ b ihl ihr | case4 a₁ a₂ b ihl ihr => rw [ihl, ihr]; rfl
  | case2 a b₁ b₂ hpart ihl ihr =>
    have ha : dnf.isOuter a = false := Expr.isOr_eq_false_of_ne hpart
    rw [ihl, ihr]
    exact (combine_part_outer ha b₁ b₂).symm
  | case5 a b₁ b₂ hpart ihl ihr =>
    have ha : cnf.isOuter a = false := Expr.isAnd_eq_false_of_ne hpart
    rw [ihl, ihr]
    exact (combine_part_outer ha b₁ b₂).symm
  | case3 a b hpart hpart' =>
    have ha : dnf.isOuter a = false := Expr.isOr_eq_false_of_ne hpart
    have hb : dnf.isOuter b = false := Expr.isOr_eq_false_of_ne hpart'
    exact (combine_eq_inner ha hb).symm
  | case6 a b hpart hpart' =>
    have ha : cnf.isOuter a = false := Expr.isAnd_eq_false_of_ne hpart
    have hb : cnf.isOuter b = false := Expr.isAnd_eq_false_of_ne hpart'
    exact (combine_eq_inner ha hb).symm

/-! ### The order of the parts -/

/-- There is one part for each pair of parts. -/
theorem length_parts_combine (a b : Expr) :
    (form.parts (form.combine a b)).length = (form.parts a).length * (form.parts b).length := by
  rw [parts_combine, List.length_flatMap]
  simp [List.map_const']

/-- Row `i` belongs to part `i` of the left operand, and place `j` in it to part `j` of the right one. -/
theorem getElem?_parts_combine (a b : Expr) (i : Nat) {j : Nat} (hj : j < (form.parts b).length) :
    (form.parts (form.combine a b))[i * (form.parts b).length + j]? =
      (form.parts a)[i]?.map fun x => form.inner x (form.parts b)[j] := by
  rw [parts_combine, getElem?_flatMap_of_length (fun x _ => List.length_map ..) i hj]
  cases (form.parts a)[i]? with
  | none => rfl
  | some x => simp [List.getElem?_eq_getElem hj]

/-- The terms of a disjunctive combination are all conjunctions of a term on the left with a term on the right,
    in the order of the left ones and, for each of these, in the order of the right ones; the factors of a
    conjunctive combination are such disjunctions of factors. So there are as many as pairs, and each pair
    has its own place, also where a part is repeated. The tree is the one that splitting makes. -/
theorem distribution_is_row_major (a b : Expr) :
    (dnf.combine a b).terms = (a.terms.flatMap fun t => b.terms.map fun u => .and t u) ∧
    (cnf.combine a b).factors = (a.factors.flatMap fun t => b.factors.map fun u => .or t u) ∧
    ∀ form : Form, form.combine a b = form.splitting a b ∧
      (form.parts (form.combine a b)).length = (form.parts a).length * (form.parts b).length ∧
      ∀ (i : Fin (form.parts a).length) (j : Fin (form.parts b).length),
        (form.parts (form.combine a b))[i * (form.parts b).length + j]? =
          some (form.inner (form.parts a)[i] (form.parts b)[j]) := by
  refine ⟨@parts_combine .dnf a b, @parts_combine .cnf a b, fun form => ⟨?_, ?_, fun i j => ?_⟩⟩
  · exact (splitting_eq form a b).symm
  · exact length_parts_combine a b
  · have hplace := getElem?_parts_combine a b i j.isLt
    rwa [List.getElem?_eq_getElem i.isLt] at hplace

end Minterm.Form
