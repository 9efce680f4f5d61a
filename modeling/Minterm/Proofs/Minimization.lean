import Minterm.Minimize
import Minterm.Proofs.CandidateGroups
import Minterm.Proofs.GreedyCover
import Minterm.Proofs.SimplifyMeaning

/-! Minimization keeps the meaning. At the cell of an assignment the term of a candidate is true if and only
    if the candidate contains the cell; so the sum of the chosen terms is true there if and only if a
    chosen candidate contains the cell. Candidates consist of cells with value `1`, hence the sum
    implies the expression for every choice, and is equivalent to it for a choice that covers. -/

namespace Minterm

theorem Literal.names_toExpr (l : Literal) : l.toExpr.names = [l.name] := by
  obtain ⟨name, positive⟩ := l
  cases positive <;> rfl

theorem Literal.denote_toExpr (l : Literal) (values : String → Bool) :
    l.toExpr.denote values = (values l.name == l.positive) := by
  obtain ⟨name, positive⟩ := l
  cases positive <;> simp [toExpr, Expr.denote]

namespace KarnaughMap
variable {e : Expr} {vars : List String} {map : KarnaughMap}

/-! ### Terms of groups -/

theorem decidedBit?_eq_some {s : CellSet} {i : Nat} {b : Bool} :
    map.decidedBit? s i = some b ↔ s ≠ [] ∧ ∀ c ∈ s, map.layout.bit c i = b := by
  cases s with
  | nil => simp [decidedBit?]
  | cons first rest =>
    simp only [decidedBit?, List.all_eq_true, beq_iff_eq, Option.ite_none_right_eq_some, Option.some.injEq,
      List.forall_mem_cons]
    constructor
    · rintro ⟨hrest, rfl⟩
      exact ⟨List.cons_ne_nil _ _, rfl, hrest⟩
    · rintro ⟨-, rfl, hrest⟩
      exact ⟨hrest, rfl⟩

theorem mem_literals {s : CellSet} {l : Literal} :
    l ∈ map.literals s ↔ ∃ i, map.vars[i]? = some l.name ∧ map.decidedBit? s i = some l.positive := by
  simp only [literals, List.mem_filterMap, Prod.exists, List.mem_zipIdx_iff_getElem?, Option.map_eq_some_iff]
  constructor
  · rintro ⟨name, i, hname, b, hb, rfl⟩
    exact ⟨i, hname, hb⟩
  · rintro ⟨i, hname, hb⟩
    exact ⟨_, i, hname, _, hb, rfl⟩

theorem bit_of_bits {cell : Cell} {values : String → Bool} (h : map.layout.bits cell = vars.map values) {i : Nat}
    {name : String} (hname : vars[i]? = some name) : map.layout.bit cell i = values name := by
  rw [Layout.bit, h, List.getElem?_map, hname]
  rfl

/-- A candidate has every cell that agrees with it in the bits that it decides. -/
theorem mem_of_decidedBits (h : ofExpr e vars = .ok map) {s : CellSet} (hs : s ∈ map.candidates) {cell : Cell}
    (hcell : cell ∈ map.layout.cells)
    (hbits : ∀ i b, i < vars.length → map.decidedBit? s i = some b → map.layout.bit cell i = b) : cell ∈ s := by
  have hgroup := groupOf_of_mem_candidates s hs
  have hcells : s ⊆ map.layout.cells := fun c hc => (mem_ones.mp (hgroup.subset hc)).1
  refine CellSet.mem_of_bits (ofExpr_eq_ok h).2.1 hgroup.ordered.nodup hcells hgroup.group hcell fun i hi => ?_
  by_contra hnone
  -- Were the bit of the cell missing in the group, the group would decide for the opposite one.
  have hopposite : map.decidedBit? s i = some (!map.layout.bit cell i) := by
    refine decidedBit?_eq_some.mpr ⟨hgroup.ne_nil, fun c hc => ?_⟩
    exact Bool.eq_not.mpr fun heq => hnone ⟨c, hc, heq⟩
  exact Bool.not_ne_self _ (hbits i _ hi hopposite).symm

/-- At the cell of an assignment the term of a candidate is true if and only if the candidate contains it. -/
theorem denote_implicant (h : ofExpr e vars = .ok map) {s : CellSet} (hs : s ∈ map.candidates) {cell : Cell}
    {values : String → Bool} (hcell : cell ∈ map.layout.cells) (hbits : map.layout.bits cell = vars.map values) :
    (map.implicant s).toExpr.denote values = true ↔ cell ∈ s := by
  obtain ⟨rfl, -⟩ := ofExpr_eq_ok h
  have hterm : (map.implicant s).toExpr.denote values = true ↔ ∀ l ∈ map.literals s, values l.name = l.positive := by
    simp only [Implicant.toExpr, implicant, Expr.denote_andAll, List.all_map, List.all_eq_true, Function.comp_apply,
      Literal.denote_toExpr, beq_iff_eq]
  rw [hterm]
  constructor
  · intro hliterals
    refine mem_of_decidedBits h hs hcell fun i b hi hb => ?_
    have hname := List.getElem?_eq_getElem hi
    rw [bit_of_bits hbits hname]
    exact hliterals ⟨map.vars[i], b⟩ (mem_literals.mpr ⟨i, hname, hb⟩)
  · intro hmem l hl
    obtain ⟨i, hname, hb⟩ := mem_literals.mp hl
    rw [← bit_of_bits hbits hname]
    exact (decidedBit?_eq_some.mp hb).2 cell hmem

theorem mem_implicants {cover : Cover} {p : Implicant} :
    p ∈ map.implicants cover ↔ ∃ i ∈ cover map.candidates map.ones, ∃ s, map.candidates[i]? = some s ∧ map.implicant s = p := by
  simp only [implicants, List.mem_mergeSort, List.mem_map, Cover.mem_chosen]
  constructor
  · rintro ⟨s, ⟨i, hi, hs⟩, rfl⟩
    exact ⟨i, hi, s, hs, rfl⟩
  · rintro ⟨i, hi, s, hs, rfl⟩
    exact ⟨s, ⟨i, hi, hs⟩, rfl⟩

/-! ### Sums of terms -/

/-- The minimized expression that belongs to a choice of candidates. -/
def chosenSum (map : KarnaughMap) (cover : Cover) : Expr :=
  let implicants := map.implicants cover
  if implicants.isEmpty then .lit false
  else if implicants.any (·.literals.isEmpty) then .lit true
  else (Expr.orAll (implicants.map Implicant.toExpr)).simplify

/-- Whichever way the sum is written, it is true if and only if one of the chosen terms is. -/
theorem denote_chosenSum (map : KarnaughMap) (cover : Cover) (values : String → Bool) :
    (map.chosenSum cover).denote values = (map.implicants cover).any (·.toExpr.denote values) := by
  unfold chosenSum
  dsimp only
  split
  · rename_i hempty
    rw [List.isEmpty_iff.mp hempty]
    rfl
  · split
    · rename_i htrue
      obtain ⟨p, hp, hliterals⟩ := List.any_eq_true.mp htrue
      refine (List.any_eq_true.mpr ⟨p, hp, ?_⟩).symm
      rw [Implicant.toExpr, List.isEmpty_iff.mp hliterals]
      rfl
    · rw [Expr.simplify, Expr.denote_simplifyWithin, Expr.denote_orAll, List.any_map]
      rfl

theorem names_implicant (map : KarnaughMap) (s : CellSet) : (map.implicant s).toExpr.names ⊆ map.vars := by
  refine Expr.names_andAll_subset (List.forall_mem_map.mpr fun l hl => ?_)
  obtain ⟨i, hvar, -⟩ := mem_literals.mp hl
  rw [Literal.names_toExpr]
  exact List.cons_subset.mpr ⟨List.mem_of_getElem? hvar, List.nil_subset _⟩

/-- The sum has no names but those of the chosen terms. -/
theorem exists_implicant_of_mem_names {cover : Cover} {name : String} (h : name ∈ (map.chosenSum cover).names) :
    ∃ p ∈ map.implicants cover, name ∈ p.toExpr.names := by
  unfold chosenSum at h
  dsimp only at h
  split at h
  · cases h
  · split at h
    · cases h
    · have hsum := Expr.names_simplifyWithin_subset _ _ h
      rw [Expr.names_orAll, List.flatMap_map] at hsum
      exact List.mem_flatMap.mp hsum

theorem names_chosenSum (map : KarnaughMap) (cover : Cover) : (map.chosenSum cover).names ⊆ map.vars := by
  intro name hname
  obtain ⟨p, hp, hname⟩ := exists_implicant_of_mem_names hname
  obtain ⟨i, -, s, -, rfl⟩ := mem_implicants.mp hp
  exact names_implicant map s hname

/-- At the cell of an assignment the sum is true if and only if a chosen candidate contains the cell. -/
theorem denote_chosenSum_iff (h : ofExpr e vars = .ok map) (cover : Cover) {cell : Cell} {values : String → Bool}
    (hcell : cell ∈ map.layout.cells) (hbits : map.layout.bits cell = vars.map values) :
    (map.chosenSum cover).denote values = true ↔
      ∃ i ∈ cover map.candidates map.ones, ∃ s, map.candidates[i]? = some s ∧ cell ∈ s := by
  rw [denote_chosenSum, List.any_eq_true]
  constructor
  · rintro ⟨p, hp, htrue⟩
    obtain ⟨i, hi, s, hs, rfl⟩ := mem_implicants.mp hp
    exact ⟨i, hi, s, hs, (denote_implicant h (List.mem_of_getElem? hs) hcell hbits).mp htrue⟩
  · rintro ⟨i, hi, s, hs, hmem⟩
    exact ⟨map.implicant s, mem_implicants.mpr ⟨i, hi, s, hs, rfl⟩,
      (denote_implicant h (List.mem_of_getElem? hs) hcell hbits).mpr hmem⟩

theorem denote_of_chosenSum (h : ofExpr e vars = .ok map) (cover : Cover) {values : String → Bool}
    (htrue : (map.chosenSum cover).denote values = true) : e.denote values = true := by
  obtain ⟨cell, hcell, hbits⟩ := exists_cell_of_assignment h values
  obtain ⟨i, -, s, hs, hmem⟩ := (denote_chosenSum_iff h cover hcell hbits).mp htrue
  have hone := (groupOf_of_mem_candidates s (List.mem_of_getElem? hs)).subset hmem
  rw [← value_eq_denote h hcell hbits]
  exact (mem_ones.mp hone).2

theorem denote_chosenSum_eq (h : ofExpr e vars = .ok map) {cover : Cover} (hcovers : cover.Covers map.candidates map.ones)
    (values : String → Bool) : (map.chosenSum cover).denote values = e.denote values := by
  rw [Bool.eq_iff_iff]
  refine ⟨denote_of_chosenSum h cover, fun htrue => ?_⟩
  obtain ⟨cell, hcell, hbits⟩ := exists_cell_of_assignment h values
  rw [← value_eq_denote h hcell hbits] at htrue
  exact (denote_chosenSum_iff h cover hcell hbits).mpr (hcovers cell (mem_ones.mpr ⟨hcell, htrue⟩))

theorem covers_greedy (map : KarnaughMap) : Cover.greedy.Covers map.candidates map.ones :=
  Cover.covers_greedy (fun s hs => (groupOf_of_mem_candidates s hs).subset)
    fun c hc => ⟨[c], singleton_mem_candidates hc, List.mem_singleton_self c⟩

end KarnaughMap

namespace Expr
variable {e r : Expr} {vars : List String} {cover : Cover}

/-! ### Minimization -/

theorem minimizeWith_nil : e.minimizeWith [] cover = (e.eval fun _ => none).map .lit := by
  rw [minimizeWith, if_pos List.isEmpty_nil]
  cases e.eval fun _ => none <;> rfl

theorem minimizeWith_of_ne_nil (h : vars ≠ []) :
    e.minimizeWith vars cover = (KarnaughMap.ofExpr e vars).map (·.chosenSum cover) := by
  rw [minimizeWith, if_neg (by simpa using h)]
  cases KarnaughMap.ofExpr e vars with
  | error fault => rfl
  | ok map =>
    rw [Except.map, KarnaughMap.chosenSum, apply_ite Except.ok, apply_ite Except.ok]
    rfl

theorem exists_minimizeWith :
    (∃ r, e.minimizeWith vars cover = .ok r) ↔
      (vars.length = 0 ∨ 2 ≤ vars.length ∧ vars.length ≤ 4) ∧ ∀ name ∈ e.names, name ∈ vars := by
  by_cases hvars : vars = []
  · subst hvars
    rw [minimizeWith_nil]
    constructor
    · rintro ⟨r, hr⟩
      obtain ⟨b, hb, -⟩ := map_eq_ok.mp hr
      exact ⟨.inl rfl, fun name hn => nomatch bound_of_eval hb name hn⟩
    · rintro ⟨-, hnames⟩
      rw [eval_of_bound fun name hn => nomatch hnames name hn]
      exact ⟨_, rfl⟩
  · have hlength : vars.length ≠ 0 := fun h => hvars (List.length_eq_zero_iff.mp h)
    rw [minimizeWith_of_ne_nil hvars, or_iff_right hlength, ← KarnaughMap.exists_ofExpr]
    constructor
    · rintro ⟨r, hr⟩
      obtain ⟨map, hmap, -⟩ := map_eq_ok.mp hr
      exact ⟨map, hmap⟩
    · rintro ⟨map, hmap⟩
      exact ⟨_, map_eq_ok.mpr ⟨map, hmap, rfl⟩⟩

/-- A result is the value of an expression without names, or the sum of what the cover chooses on the map. -/
theorem minimizeWith_cases (hr : e.minimizeWith vars cover = .ok r) :
    (vars = [] ∧ ∃ b, e.eval (fun _ => none) = .ok b ∧ .lit b = r) ∨
      ∃ map, KarnaughMap.ofExpr e vars = .ok map ∧ map.chosenSum cover = r := by
  by_cases hvars : vars = []
  · subst hvars
    rw [minimizeWith_nil] at hr
    exact .inl ⟨rfl, map_eq_ok.mp hr⟩
  · rw [minimizeWith_of_ne_nil hvars] at hr
    exact .inr (map_eq_ok.mp hr)

theorem denote_minimizeWith_nil (hr : e.minimizeWith [] cover = .ok r) (values : String → Bool) :
    r.denote values = e.denote values := by
  rw [minimizeWith_nil] at hr
  obtain ⟨b, hb, rfl⟩ := map_eq_ok.mp hr
  obtain ⟨hbound, rfl⟩ := eval_eq_ok_iff.mp hb
  exact denote_congr fun name hn => nomatch hbound name hn

theorem denote_of_minimizeWith (hr : e.minimizeWith vars cover = .ok r) {values : String → Bool}
    (htrue : r.denote values = true) : e.denote values = true := by
  rcases minimizeWith_cases hr with ⟨rfl, -⟩ | ⟨map, hmap, rfl⟩
  · rw [← denote_minimizeWith_nil hr, htrue]
  · exact KarnaughMap.denote_of_chosenSum hmap cover htrue

theorem denote_minimizeWith (hr : e.minimizeWith vars cover = .ok r)
    (hcovers : ∀ map, KarnaughMap.ofExpr e vars = .ok map → cover.Covers map.candidates map.ones)
    (values : String → Bool) : r.denote values = e.denote values := by
  rcases minimizeWith_cases hr with ⟨rfl, -⟩ | ⟨map, hmap, rfl⟩
  · exact denote_minimizeWith_nil hr values
  · exact KarnaughMap.denote_chosenSum_eq hmap (hcovers map hmap) values

theorem names_minimizeWith (hr : e.minimizeWith vars cover = .ok r) : r.names ⊆ vars := by
  rcases minimizeWith_cases hr with ⟨-, b, -, rfl⟩ | ⟨map, hmap, rfl⟩
  · exact List.nil_subset _
  · obtain ⟨rfl, -⟩ := KarnaughMap.ofExpr_eq_ok hmap
    exact map.names_chosenSum cover

/-- Minimization succeeds over none, two, three or four names that include those of the expression. Its result
    implies the expression for every choice of candidates, and has its value under every assignment
    if there are no names or the choice covers, as the greedy one does. -/
theorem minimization_correct (e : Expr) (vars : List String) (cover : Cover) :
    ((∃ r, e.minimizeWith vars cover = .ok r) ↔
      (vars.length = 0 ∨ 2 ≤ vars.length ∧ vars.length ≤ 4) ∧ ∀ name ∈ e.vars, name ∈ vars) ∧
    (∀ r, e.minimizeWith vars cover = .ok r →
      (∀ values : String → Bool, r.eval (fun name => some (values name)) = .ok true →
        e.eval (fun name => some (values name)) = .ok true) ∧
      ((vars = [] ∨ ∃ map, KarnaughMap.ofExpr e vars = .ok map ∧ cover.Covers map.candidates map.ones) →
        ∀ values : String → Bool,
          r.eval (fun name => some (values name)) = e.eval (fun name => some (values name)))) ∧
    (∀ map, KarnaughMap.ofExpr e vars = .ok map → Cover.greedy.Covers map.candidates map.ones) ∧
    ((vars.length = 0 ∨ 2 ≤ vars.length ∧ vars.length ≤ 4) → (∀ name ∈ e.vars, name ∈ vars) →
      ∃ r, e.minimize vars = .ok r ∧ ∀ values : String → Bool,
        r.eval (fun name => some (values name)) = e.eval (fun name => some (values name))) := by
  have hnames : (∀ name ∈ e.vars, name ∈ vars) ↔ ∀ name ∈ e.names, name ∈ vars := by simp only [mem_vars]
  simp only [eval_total, Except.ok.injEq, hnames]
  refine ⟨exists_minimizeWith, fun r hr => ⟨fun values => denote_of_minimizeWith hr, fun hcovers => ?_⟩,
    fun map _ => map.covers_greedy, fun hcount hsubset => ?_⟩
  · rcases hcovers with rfl | ⟨map, hmap, hcovers⟩
    · exact denote_minimizeWith_nil hr
    · refine denote_minimizeWith hr fun other hother => ?_
      obtain rfl := Except.ok.inj (hmap.symm.trans hother)
      exact hcovers
  · obtain ⟨r, hr⟩ := exists_minimizeWith.mpr ⟨hcount, hsubset⟩
    exact ⟨r, hr, denote_minimizeWith hr fun map _ => map.covers_greedy⟩

/-- Two terms that share a literal, over names of which one is given twice. -/
theorem minimization_correct_repeated :
    let e : Expr := .or (.and (.var "x") (.var "y")) (.and (.not (.var "x")) (.var "y"))
    ∃ r, e.minimize ["x", "y", "x"] = .ok r ∧
      ∀ values : String → Bool, r.eval (fun name => some (values name)) = .ok (values "y") := by
  intro e
  obtain ⟨-, -, -, hminimize⟩ := minimization_correct e ["x", "y", "x"] Cover.greedy
  obtain ⟨r, hr, hvalue⟩ := hminimize (by decide) (by decide)
  refine ⟨r, hr, fun values => ?_⟩
  rw [hvalue, eval_total]
  cases hx : values "x" <;> cases hy : values "y" <;> simp [e, denote, hx, hy]

end Expr
end Minterm
