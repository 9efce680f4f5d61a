import Mathlib.Data.List.Nodup
import Minterm.Proofs.CandidateGroups

/-! Every subcube is a candidate. A pattern fixes the bits of some variables and leaves the others free, and
    the cells that agree with it are a group. Doubling finds all of these whose cells have value `1`, by
    induction on the number of free variables: a subcube is the union of the two in which one more
    variable is fixed. The candidates stand in the order of their sizes, the largest first, and none is listed
    twice, since each round removes repetitions and makes larger sets than the one before. -/

namespace Minterm

/-! ### Patterns -/

/-- The bits of some variables; `none` stands where a variable is free. -/
abbrev Pattern := List (Option Bool)

namespace Pattern
variable {pattern : Pattern} {i : Nat}

/-- The number of free variables. -/
def free (pattern : Pattern) : Nat := pattern.count none

/-- The patterns over `n` variables. -/
def ofLength : Nat → List Pattern
  | 0 => [[]]
  | n + 1 => [none, some false, some true].flatMap fun fixed => (ofLength n).map (fixed :: ·)

theorem mem_ofLength {n : Nat} : pattern ∈ ofLength n ↔ pattern.length = n := by
  induction n generalizing pattern with
  | zero => simp [ofLength]
  | succ n ih =>
    simp only [ofLength, List.mem_flatMap, List.mem_map, ih]
    rcases pattern with - | ⟨- | - | -, pattern⟩ <;> simp

/-- To set a fixed variable free leaves one more free. -/
theorem free_set_none {b : Bool} (h : pattern[i]? = some (some b)) :
    free (pattern.set i none) = pattern.free + 1 := by
  obtain ⟨hi, hget⟩ := List.getElem?_eq_some_iff.mp h
  rw [free, List.count_set hi, hget]
  rfl

theorem getElem?_set_of_free (fixed : Option Bool) (h : pattern[i]? = some none) :
    (pattern.set i fixed)[i]? = some fixed :=
  List.getElem?_set_self (List.getElem?_eq_some_iff.mp h).1

/-- To fix a free variable leaves one less free. -/
theorem free_set_some (b : Bool) (h : pattern[i]? = some none) : pattern.free = free (pattern.set i (some b)) + 1 := by
  obtain ⟨hi, hget⟩ := List.getElem?_eq_some_iff.mp h
  rw [← free_set_none (getElem?_set_of_free (some b) h), List.set_set, ← hget, List.set_getElem_self]

theorem exists_free {k : Nat} (h : pattern.free = k + 1) : ∃ i : Nat, pattern[i]? = some none := by
  have hpos : 0 < pattern.count none := Nat.lt_of_lt_of_eq (Nat.succ_pos k) h.symm
  exact List.mem_iff_getElem?.mp (List.count_pos_iff.mp hpos)

end Pattern

namespace Layout
variable {layout : Layout} {pattern : Pattern} {cell : Cell}

/-! ### Subcubes -/

/-- The cells that have the fixed bits of a pattern. -/
def subcube (layout : Layout) (pattern : Pattern) : CellSet :=
  layout.cells.filter fun cell => pattern.zipIdx.all fun (fixed, i) => fixed.all (layout.bit cell i == ·)

theorem mem_subcube :
    cell ∈ layout.subcube pattern ↔
      cell ∈ layout.cells ∧ ∀ i b, pattern[i]? = some (some b) → layout.bit cell i = b := by
  simp only [subcube, List.mem_filter, List.all_eq_true, Prod.forall, List.mem_zipIdx_iff_getElem?, Option.all_eq_true,
    beq_iff_eq]
  refine and_congr_right fun _ => ⟨fun h i b hb => h (some b) i hb b rfl, fun h fixed i hi b hb => ?_⟩
  exact h i b (hi.trans (congrArg some hb))

theorem ordered_cells (layout : Layout) : CellSet.Ordered layout.cells := by
  refine List.pairwise_flatMap.mpr ⟨fun r _ => ?_, ?_⟩
  · refine List.pairwise_map.mpr (List.pairwise_lt_range.imp fun hlt => ?_)
    exact CellSet.before_iff.mpr (.inr ⟨rfl, hlt⟩)
  · refine List.pairwise_lt_range.imp fun hlt a ha b hb => ?_
    obtain ⟨c, -, rfl⟩ := List.mem_map.mp ha
    obtain ⟨d, -, rfl⟩ := List.mem_map.mp hb
    exact CellSet.before_iff.mpr (.inl hlt)

theorem ordered_subcube (layout : Layout) (pattern : Pattern) : CellSet.Ordered (layout.subcube pattern) :=
  (ordered_cells layout).filter _

/-- A subcube is a group whose size the number of free variables says. -/
theorem group_subcube {n : Nat} (h : ofCount n = .ok layout) (hlength : pattern.length = n) :
    (layout.subcube pattern).length = 2 ^ pattern.free ∧ CellSet.isGroup layout (layout.subcube pattern) = true := by
  -- Over four variables there are 81 patterns, which are all tried.
  have hall : ∀ layout ∈ [Layout.mk 1 1, Layout.mk 1 2, Layout.mk 2 2],
      ∀ pattern ∈ Pattern.ofLength (layout.rowVars + layout.colVars),
        (layout.subcube pattern).length = 2 ^ pattern.free ∧
          CellSet.isGroup layout (layout.subcube pattern) = true := by
    decide +kernel
  refine hall layout ?_ pattern (Pattern.mem_ofLength.mpr (hlength.trans (rowVars_add_colVars h).symm))
  rcases ofCount_eq_ok.mp h with ⟨-, rfl⟩ | ⟨-, rfl⟩ | ⟨-, rfl⟩ <;> decide

theorem exists_mem_subcube {n : Nat} (h : ofCount n = .ok layout) (hlength : pattern.length = n) :
    ∃ cell, cell ∈ layout.subcube pattern :=
  List.exists_mem_of_length_pos ((group_subcube h hlength).1 ▸ Nat.two_pow_pos _)

theorem mem_subcube_set {i : Nat} (hi : i < pattern.length) (fixed : Option Bool) :
    cell ∈ layout.subcube (pattern.set i fixed) ↔
      cell ∈ layout.cells ∧ (∀ b, fixed = some b → layout.bit cell i = b) ∧
        ∀ j b, j ≠ i → pattern[j]? = some (some b) → layout.bit cell j = b := by
  rw [mem_subcube]
  refine and_congr_right fun _ => ⟨fun h => ⟨fun b hb => h i b ?_, fun j b hne hb => h j b ?_⟩, ?_⟩
  · rw [List.getElem?_set_self hi, hb]
  · rwa [List.getElem?_set_ne (Ne.symm hne)]
  · rintro ⟨hfixed, hrest⟩ j b hb
    by_cases heq : j = i
    · subst heq
      rw [List.getElem?_set_self hi] at hb
      exact hfixed b (Option.some.inj hb)
    · rw [List.getElem?_set_ne (Ne.symm heq)] at hb
      exact hrest j b heq hb

/-- To fix one more variable leaves the half of a subcube that has the bit. -/
theorem mem_subcube_half {i : Nat} (hfree : pattern[i]? = some none) {b : Bool} :
    cell ∈ layout.subcube (pattern.set i (some b)) ↔ cell ∈ layout.subcube pattern ∧ layout.bit cell i = b := by
  obtain ⟨hi, hget⟩ := List.getElem?_eq_some_iff.mp hfree
  have hwhole : cell ∈ layout.subcube (pattern.set i none) ↔ _ := mem_subcube_set hi none
  rw [← hget, List.set_getElem_self, hget] at hwhole
  rw [mem_subcube_set hi (some b), hwhole]
  simp only [Option.some.injEq, reduceCtorEq, forall_eq', false_implies, implies_true, true_and, and_assoc,
    and_comm (a := layout.bit cell i = b)]

theorem length_lt_of_set_none {n i : Nat} (h : ofCount n = .ok layout) (hlength : pattern.length = n) {b : Bool}
    (hfixed : pattern[i]? = some (some b)) :
    (layout.subcube pattern).length < (layout.subcube (pattern.set i none)).length := by
  have hset : (pattern.set i none).length = n := by rw [List.length_set, hlength]
  rw [(group_subcube h hlength).1, (group_subcube h hset).1, Pattern.free_set_none hfixed]
  exact Nat.pow_lt_pow_succ Nat.one_lt_two

theorem subcube_eq_union {i : Nat} (hfree : pattern[i]? = some none) (b : Bool) :
    layout.subcube pattern =
      CellSet.union (layout.subcube (pattern.set i (some b))) (layout.subcube (pattern.set i (some !b))) := by
  refine CellSet.Ordered.ext (ordered_subcube _ _) (CellSet.ordered_union (ordered_subcube _ _) _) fun cell => ?_
  rw [CellSet.mem_union, mem_subcube_half hfree, mem_subcube_half hfree, ← and_or_left]
  exact (and_iff_left (by cases layout.bit cell i <;> cases b <;> simp)).symm

theorem subcube_halves_ne {n i : Nat} (h : ofCount n = .ok layout) (hlength : pattern.length = n)
    (hfree : pattern[i]? = some none) :
    layout.subcube (pattern.set i (some false)) ≠ layout.subcube (pattern.set i (some true)) := by
  intro heq
  have hset : (pattern.set i (some false)).length = n := by rw [List.length_set, hlength]
  obtain ⟨cell, hcell⟩ := exists_mem_subcube h hset
  have hfalse := ((mem_subcube_half hfree).mp hcell).2
  have htrue := ((mem_subcube_half hfree).mp (heq ▸ hcell)).2
  rw [hfalse] at htrue
  cases htrue

/-! ### Doubling finds all subcubes -/

/-- The subcubes of the given cells with the given number of free variables are all in the list. -/
def HasSubcubes (layout : Layout) (ones : List Cell) (free : Nat) (sets : List CellSet) : Prop :=
  ∀ pattern : Pattern, pattern.length = layout.rowVars + layout.colVars → pattern.free = free →
    layout.subcube pattern ⊆ ones → layout.subcube pattern ∈ sets

variable {n free : Nat} {ones : List Cell} {halves : List CellSet}

theorem hasSubcubes_singletons (h : ofCount n = .ok layout) :
    layout.HasSubcubes ones 0 (ones.map fun cell => [cell]) := by
  intro pattern hlength hfree hones
  have hsize := (group_subcube h (hlength.trans (rowVars_add_colVars h))).1
  rw [hfree, pow_zero] at hsize
  obtain ⟨cell, hcell⟩ := List.length_eq_one_iff.mp hsize
  rw [hcell] at hones ⊢
  exact List.mem_map.mpr ⟨cell, hones (List.mem_singleton_self cell), rfl⟩

theorem HasSubcubes.doubled (h : ofCount n = .ok layout) (hall : layout.HasSubcubes ones free halves) :
    layout.HasSubcubes ones (free + 1) (layout.doubled (2 ^ (free + 1)) halves) := by
  intro pattern hlength hfree hones
  obtain ⟨i, hi⟩ := Pattern.exists_free hfree
  have hsum := rowVars_add_colVars h
  have hhalf (b : Bool) : layout.subcube (pattern.set i (some b)) ∈ halves := by
    refine hall _ (by rw [List.length_set, hlength]) ?_ fun c hc => hones ((mem_subcube_half hi).mp hc).1
    exact Nat.succ.inj ((Pattern.free_set_some b hi).symm.trans hfree)
  obtain ⟨hsize, hgroup⟩ := group_subcube h (hlength.trans hsum)
  refine mem_doubled.mpr ⟨?_, hfree ▸ hsize, hgroup⟩
  rcases mem_pairs_or (hhalf false) (hhalf true) (subcube_halves_ne h (hlength.trans hsum) hi) with hpair | hpair
  · exact ⟨_, hpair, (subcube_eq_union hi false).symm⟩
  · exact ⟨_, hpair, (subcube_eq_union hi true).symm⟩

theorem HasSubcubes.doublings (h : ofCount n = .ok layout) (hall : layout.HasSubcubes ones free halves)
    {rounds k : Nat} (hlow : free ≤ k) (hhigh : k ≤ free + rounds) :
    layout.HasSubcubes ones k (layout.doublings rounds (2 ^ free) halves) := by
  induction rounds generalizing free halves with
  | zero =>
    obtain rfl : k = free := Nat.le_antisymm hhigh hlow
    exact hall
  | succ rounds ih =>
    intro pattern hlength hfree hones
    rw [Layout.doublings, List.mem_append, ← Nat.pow_succ']
    rcases Nat.eq_or_lt_of_le hlow with rfl | hlt
    · exact .inr (hall pattern hlength hfree hones)
    · exact .inl (ih (hall.doubled h) hlt (by omega) pattern hlength hfree hones)

/-! ### The order of the candidates -/

theorem pairwise_of_length_eq {size : Nat} (h : ∀ s ∈ halves, s.length = size) :
    halves.Pairwise fun s t => t.length ≤ s.length :=
  List.pairwise_of_forall_mem_list fun s hs t ht => Nat.le_of_eq ((h t ht).trans (h s hs).symm)

theorem pairwise_doublings {rounds size : Nat} (h : ∀ s ∈ halves, s.length = size) :
    (layout.doublings rounds size halves).Pairwise (fun s t => t.length ≤ s.length) ∧
      ∀ s ∈ layout.doublings rounds size halves, size ≤ s.length := by
  induction rounds generalizing size halves with
  | zero => exact ⟨pairwise_of_length_eq h, fun s hs => Nat.le_of_eq (h s hs).symm⟩
  | succ rounds ih =>
    obtain ⟨hpairs, hlow⟩ := ih fun s hs => (mem_doubled.mp hs).2.1
    have hbound : ∀ s ∈ layout.doublings rounds (2 * size) (layout.doubled (2 * size) halves), size ≤ s.length :=
      fun s hs => Nat.le_trans (Nat.le_mul_of_pos_left size Nat.two_pos) (hlow s hs)
    refine ⟨List.pairwise_append.mpr ⟨hpairs, pairwise_of_length_eq h, fun s hs t ht => ?_⟩, fun s hs => ?_⟩
    · rw [h t ht]
      exact hbound s hs
    · rcases List.mem_append.mp hs with hs | hs
      · exact hbound s hs
      · exact Nat.le_of_eq (h s hs).symm

/-- The sets of one round are larger than those of the rounds before. -/
theorem nodup_doublings {rounds size : Nat} (hsize : 0 < size) (h : ∀ s ∈ halves, s.length = size) (hnodup : halves.Nodup) :
    (layout.doublings rounds size halves).Nodup := by
  -- From each round on the sizes are known, so that the rounds that follow cannot find a set of this one.
  induction rounds generalizing size halves with
  | zero => exact hnodup
  | succ rounds ih =>
    have hdoubled : ∀ s ∈ layout.doubled (2 * size) halves, s.length = 2 * size := fun s hs => (mem_doubled.mp hs).2.1
    refine (ih (by omega) hdoubled (nodup_eraseDups _)).append hnodup fun s hs hhalf => ?_
    have hlow := (pairwise_doublings hdoubled).2 s hs
    rw [h s hhalf] at hlow
    omega

end Layout

namespace KarnaughMap
variable {map : KarnaughMap}

theorem subcube_mem_candidates (h : Layout.ofCount map.vars.length = .ok map.layout) {pattern : Pattern}
    (hlength : pattern.length = map.vars.length) (hones : map.layout.subcube pattern ⊆ map.ones) :
    map.layout.subcube pattern ∈ map.candidates := by
  have hsum := Layout.rowVars_add_colVars h
  have hfree : pattern.free ≤ 0 + map.vars.length := by
    rw [Nat.zero_add, ← hlength]
    exact List.count_le_length
  exact (Layout.hasSubcubes_singletons h).doublings h (Nat.zero_le _) hfree pattern (hlength.trans hsum.symm) rfl hones

theorem pairwise_candidates (map : KarnaughMap) : map.candidates.Pairwise fun s t => t.length ≤ s.length := by
  refine (Layout.pairwise_doublings fun s hs => ?_).1
  obtain ⟨cell, -, rfl⟩ := List.mem_map.mp hs
  rfl

theorem nodup_candidates (map : KarnaughMap) : map.candidates.Nodup := by
  have hones : map.ones.Nodup := (Layout.ordered_cells map.layout).nodup.filter _
  refine Layout.nodup_doublings Nat.one_pos (fun s hs => ?_) (hones.map fun a b h => (List.cons.inj h).1)
  obtain ⟨cell, -, rfl⟩ := List.mem_map.mp hs
  rfl

/-- A larger candidate stands before a smaller one. -/
theorem lt_of_length_lt {j k : Nat} {s t : CellSet} (ht : map.candidates[j]? = some t)
    (hs : map.candidates[k]? = some s) (hlt : s.length < t.length) : j < k := by
  obtain ⟨hj, rfl⟩ := List.getElem?_eq_some_iff.mp ht
  obtain ⟨hk, rfl⟩ := List.getElem?_eq_some_iff.mp hs
  rcases Nat.lt_trichotomy j k with hjk | rfl | hkj
  · exact hjk
  · exact absurd hlt (Nat.lt_irrefl _)
  · exact absurd (List.pairwise_iff_getElem.mp map.pairwise_candidates k j hk hj hkj) (Nat.not_le_of_lt hlt)

end KarnaughMap
end Minterm
