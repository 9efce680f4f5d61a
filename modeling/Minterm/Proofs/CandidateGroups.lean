import Minterm.Karnaugh.Candidate
import Minterm.Proofs.Groups

/-! What the candidates of a map are: groups of cells with value `1`, listed without repetition, and every
    such cell is one of them by itself. Doubling keeps this, since it joins sets of such cells and
    leaves out those that are no group. -/

namespace Minterm

namespace CellSet

/-! ### Ordered sets -/

/-- The cells stand in row-major order, each once. -/
def Ordered (s : CellSet) : Prop := s.Pairwise fun a b => before a b = true

theorem before_iff {a b : Cell} : before a b = true ↔ a.1 < b.1 ∨ a.1 = b.1 ∧ a.2 < b.2 := by
  simp [before]

theorem before_trans {a b c : Cell} (hab : before a b = true) (hbc : before b c = true) : before a c = true := by
  rw [before_iff] at *
  omega

theorem before_of_not {a b : Cell} (hne : a ≠ b) (h : ¬before a b = true) : before b a = true := by
  rw [before_iff] at *
  have hne : ¬(a.1 = b.1 ∧ a.2 = b.2) := fun heq => hne (Prod.ext heq.1 heq.2)
  omega

theorem Ordered.nodup {s : CellSet} (h : Ordered s) : s.Nodup := by
  refine h.imp fun hbefore heq => ?_
  rw [heq, before_iff] at hbefore
  omega

/-- An ordered set is determined by its members. -/
theorem Ordered.ext {s t : CellSet} (hs : Ordered s) (ht : Ordered t) (h : ∀ c, c ∈ s ↔ c ∈ t) : s = t := by
  refine ((List.perm_ext_iff_of_nodup hs.nodup ht.nodup).mpr h).eq_of_pairwise (fun a b _ _ hab hba => ?_) hs ht
  rw [before_iff] at hab hba
  omega

theorem ordered_add {s : CellSet} (h : Ordered s) (cell : Cell) : Ordered (add cell s) := by
  induction s with
  | nil => exact List.pairwise_singleton _ _
  | cons other rest ih =>
    obtain ⟨hother, hrest⟩ := List.pairwise_cons.mp h
    rw [add]
    split
    · exact h
    · rename_i hne
      split
      · rename_i hbefore
        refine List.pairwise_cons.mpr ⟨fun c hc => ?_, h⟩
        rcases List.mem_cons.mp hc with rfl | hc
        · exact hbefore
        · exact before_trans hbefore (hother c hc)
      · rename_i hnot
        refine List.pairwise_cons.mpr ⟨fun c hc => ?_, ih hrest⟩
        rcases mem_add.mp hc with rfl | hc
        · exact before_of_not hne hnot
        · exact hother c hc

theorem ordered_union {a : CellSet} (h : Ordered a) (b : CellSet) : Ordered (union a b) := by
  induction b with
  | nil => exact h
  | cons c cs ih => exact ordered_add ih c

theorem isGroup_singleton (layout : Layout) (cell : Cell) : isGroup layout [cell] = true := by
  simp [isGroup, isPowerOfTwo, isConnected, reach, isRectangle, List.eraseDups_cons]

end CellSet

theorem mem_of_mem_pairs {α : Type} {x y : α} {xs : List α} (h : (x, y) ∈ pairs xs) : x ∈ xs ∧ y ∈ xs := by
  induction xs with
  | nil => cases h
  | cons z zs ih =>
    rcases List.mem_append.mp h with h | h
    · obtain ⟨w, hw, heq⟩ := List.mem_map.mp h
      obtain ⟨rfl, rfl⟩ := Prod.mk.inj heq
      exact ⟨List.mem_cons_self, List.mem_cons_of_mem _ hw⟩
    · exact ⟨List.mem_cons_of_mem _ (ih h).1, List.mem_cons_of_mem _ (ih h).2⟩

theorem mem_pairs_or {α : Type} {x y : α} {xs : List α} (hx : x ∈ xs) (hy : y ∈ xs) (hne : x ≠ y) :
    (x, y) ∈ pairs xs ∨ (y, x) ∈ pairs xs := by
  induction xs with
  | nil => cases hx
  | cons z zs ih =>
    simp only [pairs, List.mem_append, List.mem_map]
    rcases List.mem_cons.mp hx with rfl | hxs <;> rcases List.mem_cons.mp hy with rfl | hys
    · exact absurd rfl hne
    · exact .inl (.inl ⟨y, hys, rfl⟩)
    · exact .inr (.inl ⟨x, hxs, rfl⟩)
    · exact (ih hxs hys).imp .inr .inr

/-! ### Candidates -/

/-- A group of the given cells. -/
structure Layout.GroupOf (layout : Layout) (ones : List Cell) (s : CellSet) : Prop where
  ordered : s.Ordered
  subset : s ⊆ ones
  group : CellSet.isGroup layout s = true

namespace Layout
variable {layout : Layout} {ones : List Cell}

theorem groupOf_singleton {cell : Cell} (h : cell ∈ ones) : layout.GroupOf ones [cell] where
  ordered := List.pairwise_singleton _ _
  subset := fun _ hc => List.mem_singleton.mp hc ▸ h
  group := CellSet.isGroup_singleton layout cell

theorem GroupOf.ne_nil {s : CellSet} (h : layout.GroupOf ones s) : s ≠ [] := by
  rintro rfl
  cases h.group

theorem mem_doubled {size : Nat} {halves : List CellSet} {s : CellSet} :
    s ∈ layout.doubled size halves ↔
      (∃ pair ∈ pairs halves, CellSet.union pair.1 pair.2 = s) ∧ s.length = size ∧ CellSet.isGroup layout s = true := by
  rw [doubled, List.mem_eraseDups, List.mem_filter, List.mem_map, Bool.and_eq_true, beq_iff_eq]

theorem groupOf_of_mem_doubled {size : Nat} {halves : List CellSet} (h : ∀ s ∈ halves, layout.GroupOf ones s) :
    ∀ s ∈ layout.doubled size halves, layout.GroupOf ones s := by
  intro s hs
  obtain ⟨⟨⟨a, b⟩, hpair, rfl⟩, -, hgroup⟩ := mem_doubled.mp hs
  obtain ⟨ha, hb⟩ := mem_of_mem_pairs hpair
  refine ⟨CellSet.ordered_union (h a ha).ordered b, fun c hc => ?_, hgroup⟩
  rcases CellSet.mem_union.mp hc with hc | hc
  · exact (h a ha).subset hc
  · exact (h b hb).subset hc

theorem groupOf_of_mem_doublings {rounds size : Nat} {halves : List CellSet} (h : ∀ s ∈ halves, layout.GroupOf ones s) :
    ∀ s ∈ layout.doublings rounds size halves, layout.GroupOf ones s := by
  induction rounds generalizing size halves with
  | zero => exact h
  | succ rounds ih =>
    intro s hs
    rcases List.mem_append.mp hs with hs | hs
    · exact ih (groupOf_of_mem_doubled h) s hs
    · exact h s hs

theorem subset_doublings (rounds size : Nat) (halves : List CellSet) : halves ⊆ layout.doublings rounds size halves := by
  cases rounds with
  | zero => exact fun s hs => hs
  | succ rounds => exact List.subset_append_right _ _

end Layout

namespace KarnaughMap
variable {map : KarnaughMap}

theorem groupOf_of_mem_candidates : ∀ s ∈ map.candidates, map.layout.GroupOf map.ones s := by
  refine Layout.groupOf_of_mem_doublings fun s hs => ?_
  obtain ⟨cell, hcell, rfl⟩ := List.mem_map.mp hs
  exact Layout.groupOf_singleton hcell

theorem singleton_mem_candidates {cell : Cell} (h : cell ∈ map.ones) : [cell] ∈ map.candidates :=
  Layout.subset_doublings _ _ _ (List.mem_map_of_mem h)

end KarnaughMap
end Minterm
