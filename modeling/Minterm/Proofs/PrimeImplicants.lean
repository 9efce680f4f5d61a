import Minterm.Proofs.Minimization
import Minterm.Proofs.Subcubes

/-! The groups of the greedy cover are prime implicants. A group that the cover chooses has a cell which no
    candidate before it has. If the bit of one variable could be given up, the wider subcube would be a
    candidate too, and being larger it would stand before the group and contain all its cells. So every
    bit that a chosen group decides keeps it away from some cell with value `0`.

    A name that is given twice is read at its first position, and the bit at a later position changes no
    value; hence no chosen group decides that bit, and its term is true at exactly its cells. -/

namespace Minterm

/-- A product of literals is true if every name has the bit that its literal asks for. -/
theorem Literal.eval_product {literals : List Literal} {value? : String → Option Bool} :
    (Expr.andAll (literals.map Literal.toExpr)).eval value? = .ok true ↔
      ∀ l ∈ literals, value? l.name = some l.positive := by
  simp only [Expr.eval_eq_ok_iff, Expr.names_andAll, Expr.denote_andAll, List.flatMap_map, List.mem_flatMap,
    names_toExpr, List.mem_singleton, List.all_map, List.all_eq_true, Function.comp_apply, denote_toExpr, beq_iff_eq]
  constructor
  · rintro ⟨hbound, hvalue⟩ l hl
    obtain ⟨b, hb⟩ := Option.isSome_iff_exists.mp (hbound l.name ⟨l, hl, rfl⟩)
    rw [hb, ← hvalue l hl, hb, Option.getD_some]
  · intro h
    refine ⟨?_, fun l hl => by rw [h l hl, Option.getD_some]⟩
    rintro name ⟨l, hl, rfl⟩
    rw [h l hl]
    rfl

namespace KarnaughMap
variable {e : Expr} {vars : List String} {map : KarnaughMap}

/-! ### Prime implicants -/

/-- The bits of the names at a cell. -/
def nameBit? (map : KarnaughMap) (cell : Cell) : String → Option Bool := firstBit? map.vars (map.layout.bits cell)

/-- A set of cells with value `1`, and a product that is true there and nowhere else, but at some cell with
    value `0` if it is given one literal less. -/
structure IsPrime (map : KarnaughMap) (p : Implicant) : Prop where
  nodup : p.cells.Nodup
  ones : p.cells ⊆ map.ones
  exact : ∀ cell ∈ map.layout.cells, p.toExpr.eval (map.nameBit? cell) = .ok true ↔ cell ∈ p.cells
  minimal : ∀ i < p.literals.length, ∃ cell ∈ map.layout.cells, map.value cell = false ∧
    (Expr.andAll ((p.literals.eraseIdx i).map Literal.toExpr)).eval (map.nameBit? cell) = .ok true

/-! ### The bits of a group -/

/-- The bits that a set of cells decides. -/
def pattern (map : KarnaughMap) (s : CellSet) : Pattern := (List.range map.vars.length).map (map.decidedBit? s)

theorem length_pattern (map : KarnaughMap) (s : CellSet) : (map.pattern s).length = map.vars.length := by
  rw [pattern, List.length_map, List.length_range]

theorem getElem?_pattern {s : CellSet} {i : Nat} {b : Bool} :
    (map.pattern s)[i]? = some (some b) ↔ i < map.vars.length ∧ map.decidedBit? s i = some b := by
  simp only [pattern, List.getElem?_map, Option.map_eq_some_iff, List.getElem?_eq_some_iff, List.getElem_range,
    List.length_range]
  constructor
  · rintro ⟨j, ⟨hj, rfl⟩, hb⟩
    exact ⟨hj, hb⟩
  · rintro ⟨hi, hb⟩
    exact ⟨i, ⟨hi, rfl⟩, hb⟩

/-- A candidate is the subcube of the bits that it decides. -/
theorem subcube_pattern (h : ofExpr e vars = .ok map) {s : CellSet} (hs : s ∈ map.candidates) :
    map.layout.subcube (map.pattern s) = s := by
  have hgroup := groupOf_of_mem_candidates s hs
  refine (Layout.ordered_subcube _ _).ext hgroup.ordered fun cell => ?_
  simp only [Layout.mem_subcube, getElem?_pattern]
  constructor
  · rintro ⟨hcell, hbits⟩
    exact mem_of_decidedBits h hs hcell fun i b hi hb => hbits i b ⟨(ofExpr_eq_ok h).1 ▸ hi, hb⟩
  · intro hcell
    exact ⟨(mem_ones.mp (hgroup.subset hcell)).1, fun i b hb => (decidedBit?_eq_some.mp hb.2).2 cell hcell⟩

/-! ### Chosen groups -/

/-- The greedy cover chooses the set. -/
def Chosen (map : KarnaughMap) (s : CellSet) : Prop :=
  ∃ k ∈ Cover.greedy map.candidates map.ones, map.candidates[k]? = some s

namespace Chosen
variable {s : CellSet} {i : Nat} {b : Bool}

theorem mem_candidates (hs : map.Chosen s) : s ∈ map.candidates := by
  obtain ⟨k, -, hk⟩ := hs
  exact List.mem_of_getElem? hk

theorem groupOf (hs : map.Chosen s) : map.layout.GroupOf map.ones s := groupOf_of_mem_candidates s hs.mem_candidates

/-- A larger candidate stands before the chosen set, which then has a cell that the larger one does not have. -/
theorem not_subset (hs : map.Chosen s) {t : CellSet} (ht : t ∈ map.candidates) (hlt : s.length < t.length) :
    ¬s ⊆ t := by
  obtain ⟨k, hk, hget⟩ := hs
  obtain ⟨j, hj⟩ := List.mem_iff_getElem?.mp ht
  obtain ⟨u, hu, cell, hcell, hfresh⟩ := Cover.fresh_of_mem_greedy hk
  obtain rfl := Option.some.inj (hget.symm.trans hu)
  exact fun hsubset => hfresh j (lt_of_length_lt hj hget hlt) t hj (hsubset hcell)

/-- Were a bit of a chosen group given up, a cell with value `0` would come in. -/
theorem exists_zero (h : ofExpr e vars = .ok map) (hs : map.Chosen s) (hi : i < map.vars.length)
    (hb : map.decidedBit? s i = some b) :
    ∃ cell ∈ map.layout.cells, map.value cell = false ∧
      ∀ j c, j < map.vars.length → j ≠ i → map.decidedBit? s j = some c → map.layout.bit cell j = c := by
  have hlayout := ofCount_layout h
  have hsubcube := subcube_pattern h hs.mem_candidates
  have hlength := map.length_pattern s
  have hset : ((map.pattern s).set i none).length = map.vars.length := by rw [List.length_set, hlength]
  have hwider (cell : Cell) : cell ∈ map.layout.subcube ((map.pattern s).set i none) ↔ _ :=
    Layout.mem_subcube_set (hlength.symm ▸ hi) none
  by_contra hnone
  have hones : map.layout.subcube ((map.pattern s).set i none) ⊆ map.ones := by
    intro cell hmem
    obtain ⟨hcell, -, hbits⟩ := (hwider cell).mp hmem
    refine mem_ones.mpr ⟨hcell, Bool.of_not_eq_false fun hzero => hnone ⟨cell, hcell, hzero, fun j c hj hne hc => ?_⟩⟩
    exact hbits j c hne (getElem?_pattern.mpr ⟨hj, hc⟩)
  have hlarger := Layout.length_lt_of_set_none hlayout hlength (getElem?_pattern.mpr ⟨hi, hb⟩)
  rw [hsubcube] at hlarger
  refine hs.not_subset (subcube_mem_candidates hlayout hset hones) hlarger fun cell hcell => ?_
  obtain ⟨hcells, hbits⟩ := Layout.mem_subcube.mp (hsubcube.symm ▸ hcell)
  exact (hwider cell).mpr ⟨hcells, (fun c hc => nomatch hc), fun j c _ => hbits j c⟩

/-- A bit that a chosen group decides is all that keeps some cell with value `0` out of the group. -/
theorem exists_neighbours (h : ofExpr e vars = .ok map) (hs : map.Chosen s) (hi : i < map.vars.length)
    (hb : map.decidedBit? s i = some b) :
    ∃ zero ∈ map.layout.cells, ∃ one ∈ map.layout.cells, map.layout.bits one = (map.layout.bits zero).set i b ∧
      map.value zero = false ∧ map.value one = true := by
  obtain ⟨rfl, -⟩ := ofExpr_eq_ok h
  obtain ⟨zero, hzero, hfalse, hbits⟩ := hs.exists_zero h hi hb
  obtain ⟨one, hone, hset⟩ := Layout.exists_cell_set hzero i b
  have hlength := length_bits h hzero
  have hmem : one ∈ s := by
    refine mem_of_decidedBits h hs.mem_candidates hone fun j c hj hc => ?_
    by_cases hji : j = i
    · subst hji
      rw [Layout.bit, hset, List.getElem?_set_self (by rwa [hlength]), Option.getD_some]
      exact Option.some.inj (hb.symm.trans hc)
    · rw [Layout.bit, hset, List.getElem?_set_ne (Ne.symm hji)]
      exact hbits j c hj hji hc
  exact ⟨zero, hzero, one, hone, hset, hfalse, (mem_ones.mp (hs.groupOf.subset hmem)).2⟩

/-- A chosen group decides no bit at a later position of a name. -/
theorem idxOf_eq (h : ofExpr e vars = .ok map) (hs : map.Chosen s) {name : String} (hname : map.vars[i]? = some name)
    (hb : map.decidedBit? s i = some b) : map.vars.idxOf name = i := by
  have hi := (List.getElem?_eq_some_iff.mp hname).1
  obtain ⟨zero, hzero, one, hone, hset, hfalse, htrue⟩ := hs.exists_neighbours h hi hb
  obtain ⟨rfl, -, hvalue⟩ := ofExpr_eq_ok h
  have hlength := length_bits h hzero
  by_contra hlater
  -- The two cells differ in a bit that is read under no name, and yet in their values.
  have heval := hvalue one hone
  rw [hset, firstBit?_set hlength hname hlater, hvalue zero hzero, hfalse, htrue] at heval
  cases heval

/-- The name of a literal has, at every cell, the bit of the literal's position. -/
theorem nameBit?_eq (h : ofExpr e vars = .ok map) (hs : map.Chosen s) {name : String} (hname : map.vars[i]? = some name)
    (hb : map.decidedBit? s i = some b) {cell : Cell} (hcell : cell ∈ map.layout.cells) :
    map.nameBit? cell name = some (map.layout.bit cell i) := by
  have hfirst := hs.idxOf_eq h hname hb
  have hlength := length_bits h hcell
  have hi := (List.getElem?_eq_some_iff.mp hname).1
  rw [nameBit?, firstBit?_eq hlength, hfirst, Layout.bit, List.getElem?_eq_getElem (hlength.symm ▸ hi), Option.getD_some]

theorem eval_implicant (h : ofExpr e vars = .ok map) (hs : map.Chosen s) {cell : Cell}
    (hcell : cell ∈ map.layout.cells) :
    (map.implicant s).toExpr.eval (map.nameBit? cell) = .ok true ↔ cell ∈ s := by
  rw [Implicant.toExpr, Literal.eval_product]
  constructor
  · intro hliterals
    refine mem_of_decidedBits h hs.mem_candidates hcell fun i b hi hb => ?_
    rw [← (ofExpr_eq_ok h).1] at hi
    have hname := List.getElem?_eq_getElem hi
    have hbit := hliterals ⟨map.vars[i], b⟩ (mem_literals.mpr ⟨i, hname, hb⟩)
    rw [hs.nameBit?_eq h hname hb hcell] at hbit
    exact Option.some.inj hbit
  · intro hmem l hl
    obtain ⟨i, hname, hb⟩ := mem_literals.mp hl
    rw [hs.nameBit?_eq h hname hb hcell, (decidedBit?_eq_some.mp hb).2 cell hmem]

end Chosen

/-- To leave out one literal is to give up the bit of its position and to keep all others. -/
theorem literals_eraseIdx {s : CellSet} {n : Nat} (hn : n < (map.literals s).length) :
    ∃ i b, i < map.vars.length ∧ map.decidedBit? s i = some b ∧
      ∀ l ∈ (map.literals s).eraseIdx n,
        ∃ j, j ≠ i ∧ map.vars[j]? = some l.name ∧ map.decidedBit? s j = some l.positive := by
  obtain ⟨i, ⟨name, j⟩, hx, hdecided, herase⟩ := eraseIdx_filterMap (List.getElem?_eq_getElem hn)
  obtain ⟨hname, rfl⟩ := getElem?_zipIdx_eq_some.mp hx
  obtain ⟨b, hb, -⟩ := Option.map_eq_some_iff.mp hdecided
  refine ⟨j, b, (List.getElem?_eq_some_iff.mp hname).1, hb, fun l hl => ?_⟩
  obtain ⟨⟨other, k⟩, hother, hl⟩ := List.mem_filterMap.mp (herase ▸ hl)
  obtain ⟨m, hne, hm⟩ := List.mem_eraseIdx_iff_getElem?.mp hother
  obtain ⟨hm, rfl⟩ := getElem?_zipIdx_eq_some.mp hm
  obtain ⟨c, hc, rfl⟩ := Option.map_eq_some_iff.mp hl
  exact ⟨k, hne, hm, hc⟩

theorem Chosen.isPrime (h : ofExpr e vars = .ok map) {s : CellSet} (hs : map.Chosen s) :
    map.IsPrime (map.implicant s) where
  nodup := hs.groupOf.ordered.nodup
  ones := hs.groupOf.subset
  exact _ hcell := hs.eval_implicant h hcell
  minimal n hn := by
    obtain ⟨i, b, hi, hb, hrest⟩ := literals_eraseIdx hn
    obtain ⟨cell, hcell, hzero, hbits⟩ := hs.exists_zero h hi hb
    refine ⟨cell, hcell, hzero, Literal.eval_product.mpr fun l hl => ?_⟩
    obtain ⟨j, hne, hname, hpositive⟩ := hrest l hl
    rw [hs.nameBit?_eq h hname hpositive hcell]
    exact congrArg some (hbits j _ (List.getElem?_eq_some_iff.mp hname).1 hne hpositive)

/-! ### The cover as a whole -/

theorem mem_primeImplicants {p : Implicant} : p ∈ map.primeImplicants ↔ ∃ s, map.Chosen s ∧ map.implicant s = p := by
  rw [primeImplicants, mem_implicants]
  constructor
  · rintro ⟨k, hk, s, hs, rfl⟩
    exact ⟨s, ⟨k, hk, hs⟩, rfl⟩
  · rintro ⟨s, ⟨k, hk, hs⟩, rfl⟩
    exact ⟨k, hk, s, hs, rfl⟩

theorem isPrime_of_mem (h : ofExpr e vars = .ok map) {p : Implicant} (hp : p ∈ map.primeImplicants) :
    map.IsPrime p := by
  obtain ⟨s, hs, rfl⟩ := mem_primeImplicants.mp hp
  exact hs.isPrime h

theorem exists_primeImplicant {cell : Cell} (h : cell ∈ map.ones) : ∃ p ∈ map.primeImplicants, cell ∈ p.cells := by
  obtain ⟨k, hk, s, hs, hcell⟩ := map.covers_greedy cell h
  exact ⟨map.implicant s, mem_primeImplicants.mpr ⟨s, ⟨k, hk, hs⟩, rfl⟩, hcell⟩

theorem nodup_cells_primeImplicants (map : KarnaughMap) : (map.primeImplicants.map Implicant.cells).Nodup := by
  rw [primeImplicants, implicants]
  refine ((List.mergeSort_perm _ _).map Implicant.cells).nodup_iff.mpr ?_
  rw [List.map_map, show Implicant.cells ∘ map.implicant = id from rfl, List.map_id]
  exact Cover.nodup_chosen map.candidates map.ones

theorem primeImplicants_eq_nil (h : ofExpr e vars = .ok map) :
    map.primeImplicants = [] ↔ ∀ values : String → Bool, e.denote values = false := by
  constructor
  · intro hnil values
    by_contra htrue
    obtain ⟨cell, hcell, hbits⟩ := exists_cell_of_assignment h values
    rw [← value_eq_denote h hcell hbits, Bool.not_eq_false] at htrue
    obtain ⟨p, hp, -⟩ := exists_primeImplicant (mem_ones.mpr ⟨hcell, htrue⟩)
    rw [hnil] at hp
    cases hp
  · intro hfalse
    refine List.eq_nil_iff_forall_not_mem.mpr fun p hp => ?_
    obtain ⟨s, hs, rfl⟩ := mem_primeImplicants.mp hp
    obtain ⟨cell, hcell⟩ := List.exists_mem_of_ne_nil s hs.groupOf.ne_nil
    obtain ⟨hcells, htrue⟩ := mem_ones.mp (hs.groupOf.subset hcell)
    obtain ⟨-, hvalue⟩ := Expr.eval_eq_ok_iff.mp ((ofExpr_eq_ok h).2.2 cell hcells)
    rw [hfalse, htrue] at hvalue
    cases hvalue

end KarnaughMap

namespace Expr

/-- Over two, three or four names the greedy cover consists of prime implicants, each once, which together have
    every cell with value `1`; it is empty exactly if the expression is false under every assignment. -/
theorem prime_implicants_cover (e : Expr) (vars : List String) (hcount : 2 ≤ vars.length ∧ vars.length ≤ 4)
    (hvars : ∀ name ∈ e.vars, name ∈ vars) :
    ∃ map, KarnaughMap.ofExpr e vars = .ok map ∧ e.primeTerms vars = .ok (map.primeImplicants.map Implicant.term) ∧
      (∀ p ∈ map.primeImplicants, map.IsPrime p) ∧
      (∀ cell ∈ map.ones, ∃ p ∈ map.primeImplicants, cell ∈ p.cells) ∧
      (map.primeImplicants.map Implicant.cells).Nodup ∧
      (map.primeImplicants = [] ↔ ∀ values : String → Bool, e.eval (fun name => some (values name)) = .ok false) := by
  have hnames : ∀ name ∈ e.names, name ∈ vars := fun name hn => hvars name (mem_vars.mpr hn)
  obtain ⟨map, hmap⟩ := KarnaughMap.exists_ofExpr.mpr ⟨hcount, hnames⟩
  refine ⟨map, hmap, ?_, fun p hp => KarnaughMap.isPrime_of_mem hmap hp,
    fun cell hcell => KarnaughMap.exists_primeImplicant hcell, map.nodup_cells_primeImplicants, ?_⟩
  · rw [primeTerms, hmap]
    rfl
  · simp only [eval_total, Except.ok.injEq]
    exact KarnaughMap.primeImplicants_eq_nil hmap

/-- The map of three positions with two names, the first of which is given twice. -/
theorem prime_implicants_cover_repeated :
    let e : Expr := .or (.and (.var "x") (.var "y")) (.and (.not (.var "x")) (.var "y"))
    (2 ≤ ["x", "y", "x"].length ∧ ["x", "y", "x"].length ≤ 4) ∧ (∀ name ∈ e.vars, name ∈ ["x", "y", "x"]) ∧
      ∃ map, KarnaughMap.ofExpr e ["x", "y", "x"] = .ok map ∧ map.primeImplicants ≠ [] ∧
        ∀ p ∈ map.primeImplicants, map.IsPrime p := by
  intro e
  have hvars : ∀ name ∈ e.vars, name ∈ ["x", "y", "x"] := by decide
  obtain ⟨map, hmap, -, hprime, -, -, hnil⟩ := prime_implicants_cover e ["x", "y", "x"] (by decide) hvars
  refine ⟨by decide, hvars, map, hmap, fun hempty => ?_, hprime⟩
  have hfalse := hnil.mp hempty fun _ => true
  cases hfalse

end Expr
end Minterm
