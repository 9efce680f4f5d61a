import Minterm.Proofs.PrimeImplicants

/-! The candidates are the product terms that imply the expression. A choice of fixed bits on some of the
    positions is a pattern, and the cells that have these bits are its subcube. The sets that doubling finds
    are exactly the subcubes whose cells all have value `1`, each listed once, the largest first. A subcube
    shows its pattern again: a fixed position has one bit on all of its cells, and a free one has both.
    Hence the literals of a candidate are the fixed bits of its pattern, with the names of their positions. -/

namespace Minterm

/-- The literals of the fixed bits, in the order of the variables. -/
def Pattern.literals (vars : List String) (pattern : Pattern) : List Literal :=
  (vars.zip pattern).filterMap fun (name, fixed) => fixed.map (Literal.mk name)

/-- Ordered lists of cells stand for the same set only if they are equal. -/
theorem CellSet.Ordered.toFinset_inj {s t : CellSet} (hs : Ordered s) (ht : Ordered t) : s.toFinset = t.toFinset ↔ s = t := by
  refine ⟨fun h => hs.ext ht fun c => ?_, congrArg List.toFinset⟩
  rw [← List.mem_toFinset, h, List.mem_toFinset]

namespace KarnaughMap
variable {e : Expr} {vars : List String} {map : KarnaughMap} {s : CellSet} {pattern : Pattern}

/-! ### The pattern of a subcube -/

theorem decidedBit?_subcube (h : Layout.ofCount map.vars.length = .ok map.layout) (hlength : pattern.length = map.vars.length)
    {i : Nat} {fixed : Option Bool} (hi : pattern[i]? = some fixed) :
    map.decidedBit? (map.layout.subcube pattern) i = fixed := by
  cases fixed with
  | some b =>
    obtain ⟨cell, hcell⟩ := Layout.exists_mem_subcube h hlength
    exact decidedBit?_eq_some.mpr ⟨List.ne_nil_of_mem hcell, fun c hc => (Layout.mem_subcube.mp hc).2 i b hi⟩
  | none =>
    refine Option.eq_none_iff_forall_ne_some.mpr fun b hb => ?_
    -- The half with the other bit has a cell, too.
    obtain ⟨cell, hcell⟩ := Layout.exists_mem_subcube h ((List.length_set (a := some !b)).trans hlength)
    obtain ⟨hmem, hbit⟩ := (Layout.mem_subcube_half hi).mp hcell
    rw [(decidedBit?_eq_some.mp hb).2 cell hmem] at hbit
    exact Bool.not_ne_self b hbit.symm

theorem pattern_subcube (h : Layout.ofCount map.vars.length = .ok map.layout) (hlength : pattern.length = map.vars.length) :
    map.pattern (map.layout.subcube pattern) = pattern := by
  refine List.ext_getElem ((map.length_pattern _).trans hlength.symm) fun i _ hi => ?_
  rw [← decidedBit?_subcube h hlength (List.getElem?_eq_getElem hi)]
  simp only [KarnaughMap.pattern, List.getElem_map, List.getElem_range]

theorem literals_eq (map : KarnaughMap) (s : CellSet) : map.literals s = (map.pattern s).literals map.vars := by
  rw [literals, Pattern.literals, pattern, List.zip_map_right, List.range_eq_range', ← List.zipIdx_eq_zip_range',
    List.filterMap_map]
  rfl

theorem literals_subcube (h : Layout.ofCount map.vars.length = .ok map.layout) (hlength : pattern.length = map.vars.length) :
    map.literals (map.layout.subcube pattern) = pattern.literals map.vars := by
  rw [literals_eq, pattern_subcube h hlength]

/-! ### Candidates and subcubes -/

theorem mem_candidates_iff (h : ofExpr e vars = .ok map) :
    s ∈ map.candidates ↔
      s ⊆ map.ones ∧ ∃ pattern : Pattern, pattern.length = map.vars.length ∧ map.layout.subcube pattern = s := by
  constructor
  · intro hs
    exact ⟨(groupOf_of_mem_candidates s hs).subset, map.pattern s, map.length_pattern s, subcube_pattern h hs⟩
  · rintro ⟨hones, pattern, hlength, rfl⟩
    exact subcube_mem_candidates (ofCount_layout h) hlength hones

/-- The candidates of a map are, each once and the largest first, the sets of cells that are not empty, have
    value `1` throughout and consist of all cells with some fixed bits. The literals of a candidate are these
    bits, by position: a name that is given twice may have two of them. -/
theorem candidates_are_subcubes (h : ofExpr e vars = .ok map) :
    (map.candidates.map List.toFinset).Nodup ∧
    (map.candidates.map List.toFinset).Pairwise (fun s t => t.card ≤ s.card) ∧
    (∀ cells : Finset Cell, cells ∈ map.candidates.map List.toFinset ↔
      cells.Nonempty ∧ (∀ cell ∈ cells, cell ∈ map.layout.cells ∧ map.value cell = true) ∧
        ∃ pattern : Pattern, pattern.length = vars.length ∧ cells = (map.layout.subcube pattern).toFinset) ∧
    ∀ s ∈ map.candidates, ∀ pattern : Pattern, pattern.length = vars.length →
      s.toFinset = (map.layout.subcube pattern).toFinset → map.literals s = pattern.literals vars := by
  obtain ⟨rfl, hlayout, -⟩ := ofExpr_eq_ok h
  have hordered : ∀ s ∈ map.candidates, CellSet.Ordered s := fun s hs => (groupOf_of_mem_candidates s hs).ordered
  refine ⟨?_, ?_, fun cells => ?_, fun s hs pattern hlength heq => ?_⟩
  · exact map.nodup_candidates.map_on fun s hs t ht heq => ((hordered s hs).toFinset_inj (hordered t ht)).mp heq
  · refine List.pairwise_map.mpr (map.pairwise_candidates.imp_of_mem fun {s t} hs ht hle => ?_)
    rwa [List.toFinset_card_of_nodup (hordered s hs).nodup, List.toFinset_card_of_nodup (hordered t ht).nodup]
  · rw [List.mem_map]
    constructor
    · rintro ⟨s, hs, rfl⟩
      obtain ⟨hones, pattern, hlength, heq⟩ := (mem_candidates_iff h).mp hs
      have hne : s.toFinset.Nonempty := (List.toFinset_nonempty_iff s).mpr (groupOf_of_mem_candidates s hs).ne_nil
      refine ⟨hne, fun cell hcell => ?_, pattern, hlength, congrArg List.toFinset heq.symm⟩
      exact mem_ones.mp (hones (List.mem_toFinset.mp hcell))
    · rintro ⟨-, hones, pattern, hlength, rfl⟩
      refine ⟨_, (mem_candidates_iff h).mpr ⟨fun cell hcell => ?_, pattern, hlength, rfl⟩, rfl⟩
      exact mem_ones.mpr (hones cell (List.mem_toFinset.mpr hcell))
  · rw [((hordered s hs).toFinset_inj (Layout.ordered_subcube _ _)).mp heq]
    exact literals_subcube hlayout hlength

/-- A group across the edge of the map that fixes both positions of a name, and not to one bit. -/
theorem candidates_are_subcubes_wrapped :
    let map : KarnaughMap := ⟨["x", "y", "x"], ⟨1, 2⟩, [List.replicate 4 false, List.replicate 4 true]⟩
    ofExpr (.var "x") ["x", "y", "x"] = .ok map ∧ ({(1, 0), (1, 3)} : Finset Cell) ∈ map.candidates.map List.toFinset ∧
      [(1, 0), (1, 3)] ∈ map.candidates ∧ map.literals [(1, 0), (1, 3)] = [⟨"x", true⟩, ⟨"x", false⟩] := by
  intro map
  have hmap : ofExpr (.var "x") ["x", "y", "x"] = .ok map := by decide
  obtain ⟨-, -, hcandidates, hliterals⟩ := candidates_are_subcubes hmap
  have hmem : [(1, 0), (1, 3)] ∈ map.candidates := by decide
  refine ⟨hmap, (hcandidates _).mpr ⟨by decide, by decide, [some true, none, some false], rfl, by decide⟩, hmem, ?_⟩
  exact hliterals _ hmem [some true, none, some false] rfl (by decide)

end KarnaughMap
end Minterm
