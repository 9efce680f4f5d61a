import Mathlib.Logic.Function.Basic
import Minterm.Proofs.CanonicalMinimum
import Minterm.Proofs.PrimeImplicants
import Minterm.Proofs.ReducedForm

/-! The names of a minimum. A name matters to an expression if some assignment gives another value once the
    name alone is bound otherwise. The bit that a chosen group decides is all that keeps some cell with
    value `0` out of the group, so the name of that bit matters. Names that do not matter, among them all
    names of the list that the expression does not have, never come into its minimum.

    The minimum has the value of the expression, so that the same names matter to both, and what matters to
    an expression occurs in it. Hence the names of a minimum are exactly those that matter. Nothing matters
    to a constant expression, and the only simplified tree without names is a constant. -/

namespace Minterm

namespace Expr

/-- Some value hangs on the name. -/
def Matters (e : Expr) (name : String) : Prop :=
  ∃ (values : String → Bool) (b : Bool), e.denote (Function.update values name b) ≠ e.denote values

variable {e f : Expr} {name : String}

/-- To bind a name otherwise is to flip it. -/
theorem matters_iff :
    e.Matters name ↔ ∃ values : String → Bool, e.denote (Function.update values name !values name) ≠ e.denote values := by
  constructor
  · rintro ⟨values, b, hne⟩
    have hflip : b = !values name := Bool.eq_not.mpr fun heq => hne (by rw [heq, Function.update_eq_self])
    exact ⟨values, hflip ▸ hne⟩
  · rintro ⟨values, hne⟩
    exact ⟨values, _, hne⟩

theorem matters_congr (h : ∀ values, e.denote values = f.denote values) : e.Matters name ↔ f.Matters name := by
  simp only [Matters, h]

/-- Only names of an expression matter to it. -/
theorem Matters.mem_names (h : e.Matters name) : name ∈ e.names := by
  obtain ⟨values, b, hne⟩ := h
  by_contra hname
  refine hne (denote_congr fun other hother => Function.update_of_ne ?_ b values)
  rintro rfl
  exact hname hother

end Expr

namespace KarnaughMap
variable {e : Expr} {vars : List String} {map : KarnaughMap}

theorem Chosen.matters (h : ofExpr e vars = .ok map) {s : CellSet} (hs : map.Chosen s) {i : Nat} {b : Bool} {name : String}
    (hname : map.vars[i]? = some name) (hb : map.decidedBit? s i = some b) : e.Matters name := by
  have hi := (List.getElem?_eq_some_iff.mp hname).1
  obtain ⟨zero, hzero, one, hone, hset, hfalse, htrue⟩ := hs.exists_neighbours h hi hb
  have hfirst := hs.idxOf_eq h hname hb
  obtain ⟨rfl, -, hvalue⟩ := ofExpr_eq_ok h
  have hbits (other : String) : firstBit? map.vars (map.layout.bits one) other =
      if other = name then some b else firstBit? map.vars (map.layout.bits zero) other := by
    rw [hset, ← hfirst]
    exact firstBit?_set_idxOf (length_bits h hzero) (List.mem_of_getElem? hname) b other
  obtain ⟨-, hzeroValue⟩ := Expr.eval_eq_ok_iff.mp (hvalue zero hzero)
  obtain ⟨-, honeValue⟩ := Expr.eval_eq_ok_iff.mp (hvalue one hone)
  refine ⟨fun other => (firstBit? map.vars (map.layout.bits zero) other).getD false, b, ?_⟩
  have hupdate : Function.update (fun other => (firstBit? map.vars (map.layout.bits zero) other).getD false) name b =
      fun other => (firstBit? map.vars (map.layout.bits one) other).getD false := by
    funext other
    rw [hbits, Function.update_apply]
    split <;> rfl
  rw [hupdate, hzeroValue, honeValue, hfalse, htrue]
  exact Bool.true_eq_false.mp

theorem matters_of_mem_primeImplicants (h : ofExpr e vars = .ok map) {p : Implicant} (hp : p ∈ map.primeImplicants)
    {name : String} (hname : name ∈ p.toExpr.names) : e.Matters name := by
  obtain ⟨s, hs, rfl⟩ := mem_primeImplicants.mp hp
  rw [Implicant.toExpr, Expr.names_andAll, List.flatMap_map, List.mem_flatMap] at hname
  obtain ⟨l, hl, hname⟩ := hname
  rw [Literal.names_toExpr, List.mem_singleton] at hname
  obtain ⟨i, hvar, hb⟩ := mem_literals.mp hl
  exact hs.matters h (hname ▸ hvar) hb

theorem simplified_chosenSum (map : KarnaughMap) (cover : Cover) : (map.chosenSum cover).Simplified := by
  unfold chosenSum
  dsimp only
  split
  · exact .lit false
  · split
    · exact .lit true
    · exact Expr.simplified_simplify _

end KarnaughMap

namespace Expr
variable {e r : Expr} {vars : List String} {name : String}

/-! ### Names that matter -/

/-- A minimum has no names but those that matter. -/
theorem matters_of_mem_names_minimize (hr : e.minimize vars = .ok r) (hname : name ∈ r.names) : e.Matters name := by
  rcases minimizeWith_cases hr with ⟨-, b, -, rfl⟩ | ⟨map, hmap, rfl⟩
  · cases hname
  · obtain ⟨p, hp, hname⟩ := KarnaughMap.exists_implicant_of_mem_names hname
    exact KarnaughMap.matters_of_mem_primeImplicants hmap hp hname

theorem mem_names_minimize_iff (hr : e.minimize vars = .ok r) : name ∈ r.names ↔ e.Matters name :=
  ⟨matters_of_mem_names_minimize hr, fun h => ((matters_congr (denote_minimize hr)).mpr h).mem_names⟩

/-! ### Constant expressions -/

theorem simplified_minimizeWith {cover : Cover} (hr : e.minimizeWith vars cover = .ok r) : r.Simplified := by
  rcases minimizeWith_cases hr with ⟨-, b, -, rfl⟩ | ⟨map, -, rfl⟩
  · exact .lit b
  · exact map.simplified_chosenSum cover

theorem minimize_of_constant (hr : e.minimize vars = .ok r) {b : Bool} (h : ∀ values, e.denote values = b) :
    r = .lit b := by
  have hnames : r.names = [] := List.eq_nil_iff_forall_not_mem.mpr fun name hname => by
    obtain ⟨values, c, hne⟩ := matters_of_mem_names_minimize hr hname
    exact hne ((h _).trans (h _).symm)
  have hlit : r.isLit = true := (simplified_minimizeWith hr).resolve_right fun hred => hred.names_ne_nil hnames
  cases r with
  | lit c => rw [← h fun _ => false, ← denote_minimize hr, denote]
  | _ => cases hlit

/-- Over two, three or four names that include those of an expression, of which some may be equal or not occur
    in it, the names of its minimum are those whose flip changes the value under some assignment. So the
    minimum of a constant expression is the constant. -/
theorem minimum_keeps_what_matters (e : Expr) (vars : List String) (hcount : 2 ≤ vars.length ∧ vars.length ≤ 4)
    (hvars : ∀ name ∈ e.vars, name ∈ vars) :
    ∃ r, e.minimize vars = .ok r ∧
      (∀ name, name ∈ r.vars ↔ ∃ values : String → Bool,
        e.eval (fun other => some (Function.update values name (!values name) other)) ≠
          e.eval fun other => some (values other)) ∧
      ∀ b, (∀ values : String → Bool, e.eval (fun name => some (values name)) = .ok b) → r = .lit b := by
  have hnames : ∀ name ∈ e.names, name ∈ vars := fun name hn => hvars name (mem_vars.mpr hn)
  obtain ⟨r, hr⟩ := exists_minimizeWith.mpr ⟨.inr hcount, hnames⟩
  simp only [eval_total, Except.ok.injEq, mem_vars, ne_eq]
  exact ⟨r, hr, fun name => (mem_names_minimize_iff hr).trans matters_iff, fun b => minimize_of_constant hr⟩

/-- Of the names of the list one is given twice and occurs without effect, and one does not occur. -/
theorem minimum_keeps_what_matters_unused :
    let e : Expr := .or (.and (.var "x") (.var "y")) (.and (.not (.var "x")) (.var "y"))
    (2 ≤ ["x", "z", "y", "x"].length ∧ ["x", "z", "y", "x"].length ≤ 4) ∧ (∀ name ∈ e.vars, name ∈ ["x", "z", "y", "x"]) ∧
      ∃ r, e.minimize ["x", "z", "y", "x"] = .ok r ∧ ∀ name, name ∈ r.vars ↔ name = "y" := by
  intro e
  have hvars : ∀ name ∈ e.vars, name ∈ ["x", "z", "y", "x"] := by decide
  have hvalue (values : String → Bool) : e.eval (fun name => some (values name)) = .ok (values "y") := by
    rw [eval_total]
    cases hx : values "x" <;> cases hy : values "y" <;> simp [e, denote, hx, hy]
  obtain ⟨r, hr, hmatters, -⟩ := minimum_keeps_what_matters e ["x", "z", "y", "x"] (by decide) hvars
  have hnames (name : String) : name ∈ r.vars ↔ name = "y" := by
    simp only [hmatters, hvalue, ne_eq, Except.ok.injEq, Function.update_apply]
    by_cases hname : name = "y"
    · simp [hname]
    · simp [hname, Ne.symm hname]
  exact ⟨by decide, hvars, r, hr, hnames⟩

end Expr
end Minterm
