import Mathlib.Data.Finset.Powerset
import Mathlib.Data.Finset.Prod
import Minterm.Karnaugh.CellSet
import Minterm.Proofs.MapCells

/-! Groups are subcubes. A group is the product of the rows and the columns that it touches. On each axis
    these are a power of two of places that hang together on the circle, and with at most four places
    on the circle such places are exactly those that agree with them in some bits. Hence a cell belongs
    to a group as soon as every one of its bits occurs at that position in the group
    (`mem_of_bits`). -/

namespace Minterm

/-! ### One axis -/

/-- Bit number `i` of a place in Gray order. -/
def axisBit (n place i : Nat) : Bool := ((grayCode n)[place]?.getD [])[i]?.getD false

/-- From `root` every place is reached by steps to neighbours on a circle of `n` places. -/
def HangsTogether (n : Nat) (places : Finset Nat) (root : Nat) : Prop :=
  ∀ reached ∈ places.powerset, root ∈ reached →
    (∀ p ∈ reached, ∀ q ∈ places, circularDistance n p q = 1 → q ∈ reached) → reached = places

instance (n : Nat) (places : Finset Nat) (root : Nat) : Decidable (HangsTogether n places root) :=
  inferInstanceAs (Decidable (∀ reached ∈ places.powerset, _))

/-- A power of two of places that hang together has every place whose bits all occur in it. Up to two
    variables share an axis, so that there are few sets of places. -/
theorem mem_of_axisBits {n : Nat} (hn : n ∈ [1, 2]) {places : Finset Nat} {root p : Nat}
    (hplaces : places ⊆ Finset.range (grayCode n).length) (hpower : CellSet.isPowerOfTwo places.card = true)
    (hroot : root ∈ places) (htogether : HangsTogether (grayCode n).length places root)
    (hp : p < (grayCode n).length) (hbits : ∀ i < n, ∃ q ∈ places, axisBit n q i = axisBit n p i) : p ∈ places := by
  -- A circle of four places has sixteen sets of places, which are all tried.
  have hall : ∀ n ∈ [1, 2], ∀ places ∈ (Finset.range (grayCode n).length).powerset, ∀ root ∈ places,
      CellSet.isPowerOfTwo places.card = true → HangsTogether (grayCode n).length places root →
        ∀ p ∈ Finset.range (grayCode n).length,
          (∀ i ∈ Finset.range n, ∃ q ∈ places, axisBit n q i = axisBit n p i) → p ∈ places := by
    decide +kernel
  exact hall n hn places (Finset.mem_powerset.mpr hplaces) root hroot hpower htogether p (Finset.mem_range.mpr hp)
    fun i hi => hbits i (Finset.mem_range.mp hi)

theorem eq_of_circularDistance {n p q : Nat} (hp : p < n) (hq : q < n) (h : circularDistance n p q = 0) : p = q := by
  simp only [circularDistance] at h
  omega

theorem isPowerOfTwo_of_mul {m n : Nat} (hm : m ≤ 4) (hn : n ≤ 4) (h : CellSet.isPowerOfTwo (m * n) = true) :
    CellSet.isPowerOfTwo m = true ∧ CellSet.isPowerOfTwo n = true := by
  have hall : ∀ m ∈ Finset.range 5, ∀ n ∈ Finset.range 5, CellSet.isPowerOfTwo (m * n) = true →
      CellSet.isPowerOfTwo m = true ∧ CellSet.isPowerOfTwo n = true := by
    decide
  exact hall m (Finset.mem_range_succ_iff.mpr hm) n (Finset.mem_range_succ_iff.mpr hn) h

namespace Layout
variable {layout : Layout} {cell : Cell}

theorem bit_row (h : cell ∈ layout.cells) {i : Nat} (hi : i < layout.rowVars) :
    layout.bit cell i = axisBit layout.rowVars cell.1 i := by
  have hlength : i < (layout.rowCode cell).length := by rwa [mem_grayCode.mp (rowCode_mem h)]
  rw [bit, bits, List.getElem?_append_left hlength]
  rfl

theorem bit_col (h : cell ∈ layout.cells) (i : Nat) :
    layout.bit cell (layout.rowVars + i) = axisBit layout.colVars cell.2 i := by
  have hlength : (layout.rowCode cell).length = layout.rowVars := mem_grayCode.mp (rowCode_mem h)
  rw [bit, bits, List.getElem?_append_right (by omega), hlength, Nat.add_sub_cancel_left]
  rfl

end Layout

namespace CellSet
variable {layout : Layout} {s : CellSet}

/-! ### Connected sets -/

theorem forall_reach {P : Cell → Prop} (hstep : ∀ a, P a → ∀ b ∈ s, layout.adjacent a b = true → P b) {steps : Nat}
    {start : List Cell} (hstart : ∀ c ∈ start, P c) : ∀ c ∈ reach layout s steps start, P c := by
  induction steps generalizing start with
  | zero => exact hstart
  | succ steps ih =>
    refine ih fun c hc => ?_
    obtain ⟨hmem, hreached⟩ := List.mem_filter.mp hc
    rcases Bool.or_eq_true_iff.mp hreached with hold | hnew
    · exact hstart c (of_decide_eq_true hold)
    · obtain ⟨d, hd, hadjacent⟩ := List.any_eq_true.mp hnew
      exact hstep d (hstart d hd) c hmem hadjacent

theorem reach_sublist {steps : Nat} {start : List Cell} (h : start.Sublist s) :
    (reach layout s steps start).Sublist s := by
  induction steps generalizing start with
  | zero => exact h
  | succ steps ih => exact ih List.filter_sublist

/-- What holds of the first cell and passes on to neighbours holds of a whole connected set. -/
theorem forall_of_isConnected {P : Cell → Prop} {first : Cell} {rest : List Cell}
    (h : isConnected layout (first :: rest) = true) (hfirst : P first)
    (hstep : ∀ a, P a → ∀ b ∈ first :: rest, layout.adjacent a b = true → P b) : ∀ c ∈ first :: rest, P c := by
  have hsublist : (reach layout (first :: rest) rest.length [first]).Sublist (first :: rest) :=
    reach_sublist (List.singleton_sublist.mpr List.mem_cons_self)
  have hall := hsublist.eq_of_length (beq_iff_eq.mp h)
  rw [← hall]
  exact forall_reach hstep fun c hc => List.mem_singleton.mp hc ▸ hfirst

/-! ### Rows and columns of a group -/

/-- The places of the cells on one axis. -/
def places (place : Cell → Nat) (s : CellSet) : Finset Nat := (s.map place).toFinset

variable {place : Cell → Nat}

theorem mem_places {p : Nat} : p ∈ places place s ↔ ∃ c ∈ s, place c = p := by
  rw [places, List.mem_toFinset, List.mem_map]

theorem places_subset {n : Nat} (h : ∀ c ∈ s, place c < n) : places place s ⊆ Finset.range n := by
  intro p hp
  obtain ⟨c, hc, rfl⟩ := mem_places.mp hp
  exact Finset.mem_range.mpr (h c hc)

theorem card_places_mul (h : isRectangle s = true) : (places (·.1) s).card * (places (·.2) s).card = s.length := by
  rw [places, places, ← length_eraseDups, ← length_eraseDups]
  exact beq_iff_eq.mp h

/-- A full rectangle has a cell wherever one of its rows meets one of its columns. -/
theorem mem_of_isRectangle (h : isRectangle s = true) (hs : s.Nodup) {cell : Cell} (hr : cell.1 ∈ places (·.1) s)
    (hc : cell.2 ∈ places (·.2) s) : cell ∈ s := by
  have hsubset : s.toFinset ⊆ places (·.1) s ×ˢ places (·.2) s := by
    intro c hmem
    have hmem := List.mem_toFinset.mp hmem
    exact Finset.mem_product.mpr ⟨mem_places.mpr ⟨c, hmem, rfl⟩, mem_places.mpr ⟨c, hmem, rfl⟩⟩
  have hcard : (places (·.1) s ×ˢ places (·.2) s).card ≤ s.toFinset.card := by
    rw [Finset.card_product, card_places_mul h, List.toFinset_card_of_nodup hs]
  rw [← List.mem_toFinset, Finset.eq_of_subset_of_card_le hsubset hcard]
  exact Finset.mem_product.mpr ⟨hr, hc⟩

theorem isPowerOfTwo_card {n : Nat} (hlayout : Layout.ofCount n = .ok layout) (hcells : s ⊆ layout.cells)
    (hpower : isPowerOfTwo s.length = true) (hrectangle : isRectangle s = true) :
    isPowerOfTwo (places (·.1) s).card = true ∧ isPowerOfTwo (places (·.2) s).card = true := by
  have hrows := Finset.card_le_card (places_subset fun c hc => (Layout.mem_cells.mp (hcells hc)).1)
  have hcols := Finset.card_le_card (places_subset fun c hc => (Layout.mem_cells.mp (hcells hc)).2)
  rw [Finset.card_range] at hrows hcols
  have hfour : layout.rows ≤ 4 ∧ layout.cols ≤ 4 := by
    rcases Layout.ofCount_eq_ok.mp hlayout with ⟨-, rfl⟩ | ⟨-, rfl⟩ | ⟨-, rfl⟩ <;> decide
  rw [← card_places_mul hrectangle] at hpower
  exact isPowerOfTwo_of_mul (hrows.trans hfour.1) (hcols.trans hfour.2) hpower

theorem hangsTogether_places {first : Cell} {rest : List Cell} (h : isConnected layout (first :: rest) = true) {n : Nat}
    (hstep : ∀ a ∈ first :: rest, ∀ b ∈ first :: rest, layout.adjacent a b = true →
      circularDistance n (place a) (place b) = 1 ∨ place a = place b) :
    HangsTogether n (places place (first :: rest)) (place first) := by
  intro reached hsubset hroot hclosed
  have hall : ∀ c ∈ first :: rest, c ∈ first :: rest ∧ place c ∈ reached := by
    refine forall_of_isConnected h ⟨List.mem_cons_self, hroot⟩ fun a ha b hb hadjacent => ⟨hb, ?_⟩
    rcases hstep a ha.1 b hb hadjacent with hnext | hsame
    · exact hclosed _ ha.2 _ (mem_places.mpr ⟨b, hb, rfl⟩) hnext
    · exact hsame ▸ ha.2
  refine Finset.Subset.antisymm (Finset.mem_powerset.mp hsubset) fun p hp => ?_
  obtain ⟨c, hc, rfl⟩ := mem_places.mp hp
  exact (hall c hc).2

/-- A connected set with a power of two of places has every place whose bits all occur in it. -/
theorem mem_places_of_axisBits {n : Nat} (hn : n ∈ [1, 2]) (hlt : ∀ c ∈ s, place c < (grayCode n).length)
    (hpower : isPowerOfTwo (places place s).card = true) (hconnected : isConnected layout s = true)
    (hstep : ∀ a ∈ s, ∀ b ∈ s, layout.adjacent a b = true →
      circularDistance (grayCode n).length (place a) (place b) = 1 ∨ place a = place b)
    {cell : Cell} (hcell : place cell < (grayCode n).length)
    (hbits : ∀ i < n, ∃ c ∈ s, axisBit n (place c) i = axisBit n (place cell) i) : place cell ∈ places place s := by
  cases s with
  | nil => cases hconnected
  | cons first rest =>
    refine mem_of_axisBits hn (places_subset hlt) hpower (mem_places.mpr ⟨first, List.mem_cons_self, rfl⟩)
      (hangsTogether_places hconnected hstep) hcell fun i hi => ?_
    obtain ⟨c, hc, heq⟩ := hbits i hi
    exact ⟨place c, mem_places.mpr ⟨c, hc, rfl⟩, heq⟩

/-- Neighbours are neighbours in one direction and stand at the same place in the other. -/
theorem places_of_adjacent {a b : Cell} (ha : a ∈ layout.cells) (hb : b ∈ layout.cells) (h : layout.adjacent a b = true) :
    (circularDistance layout.rows a.1 b.1 = 1 ∧ a.2 = b.2) ∨ (a.1 = b.1 ∧ circularDistance layout.cols a.2 b.2 = 1) := by
  obtain ⟨har, hac⟩ := Layout.mem_cells.mp ha
  obtain ⟨hbr, hbc⟩ := Layout.mem_cells.mp hb
  simp only [Layout.adjacent, Bool.or_eq_true, Bool.and_eq_true, beq_iff_eq] at h
  rcases h with ⟨hr, hc⟩ | ⟨hr, hc⟩
  · exact .inl ⟨hr, eq_of_circularDistance hac hbc hc⟩
  · exact .inr ⟨eq_of_circularDistance har hbr hr, hc⟩

/-- A group has every cell whose bits all occur in it at their positions. -/
theorem mem_of_bits {n : Nat} (hlayout : Layout.ofCount n = .ok layout) (hs : s.Nodup) (hcells : s ⊆ layout.cells)
    (hgroup : isGroup layout s = true) {cell : Cell} (hcell : cell ∈ layout.cells)
    (hbits : ∀ i < n, ∃ c ∈ s, layout.bit c i = layout.bit cell i) : cell ∈ s := by
  simp only [isGroup, Bool.and_eq_true] at hgroup
  obtain ⟨⟨hpower, hconnected⟩, hrectangle⟩ := hgroup
  obtain ⟨hpowerRows, hpowerCols⟩ := isPowerOfTwo_card hlayout hcells hpower hrectangle
  have hvars : layout.rowVars ∈ [1, 2] ∧ layout.colVars ∈ [1, 2] := by
    rcases Layout.ofCount_eq_ok.mp hlayout with ⟨-, rfl⟩ | ⟨-, rfl⟩ | ⟨-, rfl⟩ <;> decide
  have hn := Layout.rowVars_add_colVars hlayout
  have hlt {c : Cell} (hc : c ∈ s) := Layout.mem_cells.mp (hcells hc)
  have hadjacent {a b : Cell} (ha : a ∈ s) (hb : b ∈ s) := places_of_adjacent (hcells ha) (hcells hb)
  have hrow : cell.1 ∈ places (·.1) s := by
    refine mem_places_of_axisBits hvars.1 (fun c hc => (hlt hc).1) hpowerRows hconnected
      (fun a ha b hb h => (hadjacent ha hb h).imp (·.1) (·.1)) (Layout.mem_cells.mp hcell).1 fun i hi => ?_
    obtain ⟨c, hc, heq⟩ := hbits i (by omega)
    rw [Layout.bit_row (hcells hc) hi, Layout.bit_row hcell hi] at heq
    exact ⟨c, hc, heq⟩
  have hcol : cell.2 ∈ places (·.2) s := by
    refine mem_places_of_axisBits hvars.2 (fun c hc => (hlt hc).2) hpowerCols hconnected
      (fun a ha b hb h => (hadjacent ha hb h).symm.imp (·.2) (·.2)) (Layout.mem_cells.mp hcell).2 fun i hi => ?_
    obtain ⟨c, hc, heq⟩ := hbits (layout.rowVars + i) (by omega)
    rw [Layout.bit_col (hcells hc), Layout.bit_col hcell] at heq
    exact ⟨c, hc, heq⟩
  exact mem_of_isRectangle hrectangle hs hrow hcol

end CellSet
end Minterm
