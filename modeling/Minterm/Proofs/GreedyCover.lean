import Mathlib.Data.List.Nodup
import Mathlib.Data.List.Perm.Subperm
import Minterm.Karnaugh.Cover
import Minterm.Proofs.Lists

/-! The greedy choice covers. The cells that are covered so far are some of those to be covered, without
    repetition; so when there are as many of them as there are to be covered, they are all. Until then
    no candidate is passed over that has anything new. So whatever stands before a chosen candidate is
    covered when its turn comes, and the choice has a cell that no candidate before it has. -/

namespace Minterm
namespace Cover

/-- The chosen candidates together contain all cells that are to be covered. -/
def Covers (cover : Cover) (candidates : List CellSet) (ones : List Cell) : Prop :=
  ∀ c ∈ ones, ∃ i ∈ cover candidates ones, ∃ s, candidates[i]? = some s ∧ c ∈ s

theorem mem_chosen {cover : Cover} {candidates : List CellSet} {ones : List Cell} {s : CellSet} :
    s ∈ cover.chosen candidates ones ↔ ∃ i ∈ cover candidates ones, candidates[i]? = some s := by
  rw [chosen, List.mem_pmap]
  constructor
  · rintro ⟨i, hi, rfl⟩
    exact ⟨i, hi, List.getElem?_eq_getElem (cover.lt_length hi)⟩
  · rintro ⟨i, hi, hs⟩
    exact ⟨i, hi, (List.getElem?_eq_some_iff.mp hs).2⟩

theorem length_chosen (cover : Cover) (candidates : List CellSet) (ones : List Cell) :
    (cover.chosen candidates ones).length = (cover candidates ones).length := List.length_pmap

/-! ### Cells that are covered -/

theorem mem_extend {covered : List Cell} {s : CellSet} {c : Cell} : c ∈ extend covered s ↔ c ∈ covered ∨ c ∈ s := by
  induction s generalizing covered with
  | nil => simp
  | cons d ds ih =>
    rw [extend, List.foldl_cons, ih, List.mem_insert_iff, List.mem_cons]
    tauto

theorem nodup_extend {covered : List Cell} (h : covered.Nodup) (s : CellSet) : (extend covered s).Nodup := by
  induction s generalizing covered with
  | nil => exact h
  | cons d ds ih => exact ih h.insert

/-- Some of the cells that are to be covered, without repetition. -/
structure Progress (ones covered : List Cell) : Prop where
  nodup : covered.Nodup
  subset : covered ⊆ ones

theorem Progress.extend {ones covered : List Cell} (h : Progress ones covered) {s : CellSet} (hs : s ⊆ ones) :
    Progress ones (extend covered s) where
  nodup := nodup_extend h.nodup s
  subset _ hc := (mem_extend.mp hc).elim (fun hc => h.subset hc) fun hc => hs hc

theorem Progress.complete {ones covered : List Cell} (h : Progress ones covered) (hlength : covered.length = ones.length) :
    ones ⊆ covered :=
  ((List.subperm_of_subset h.nodup h.subset).perm_of_length_le (Nat.le_of_eq hlength.symm)).symm.subset

/-! ### The greedy choice -/

/-- What is covered already, or lies in a candidate that is still to come, is covered in the end. -/
theorem covered_greedyFrom {ones : List Cell} {candidates : List CellSet} (hsubset : ∀ s ∈ candidates, s ⊆ ones)
    {covered : List Cell} (h : Progress ones covered) {next : Nat} {rest : List CellSet} (hrest : candidates.drop next = rest)
    {c : Cell} (hc : c ∈ covered ∨ ∃ s ∈ rest, c ∈ s) :
    c ∈ covered ∨ ∃ i ∈ greedyFrom ones next covered rest, ∃ s, candidates[i]? = some s ∧ c ∈ s := by
  -- The candidates that are still to come are a suffix of all candidates, so that positions need no shift.
  induction rest generalizing next covered with
  | nil => exact .inl (hc.resolve_right fun ⟨_, hs, _⟩ => nomatch hs)
  | cons first rest ih =>
    obtain ⟨hfirst, htail⟩ := of_drop_eq_cons hrest
    have hones : first ⊆ ones := hsubset first (List.mem_of_getElem? hfirst)
    rw [List.exists_mem_cons_iff, ← or_assoc] at hc
    rw [greedyFrom_cons]
    split
    · rename_i hlength
      left
      rcases hc with (hc | hc) | ⟨s, hs, hc⟩
      · exact hc
      · exact h.complete hlength (hones hc)
      · exact h.complete hlength (hsubset s (List.mem_of_mem_drop (htail ▸ hs)) hc)
    · split
      · rw [← mem_extend] at hc
        rcases ih (h.extend hones) htail hc with hold | ⟨i, hi, hs⟩
        · rcases mem_extend.mp hold with hold | hnew
          · exact .inl hold
          · exact .inr ⟨next, List.mem_cons_self, first, hfirst, hnew⟩
        · exact .inr ⟨i, List.mem_cons_of_mem _ hi, hs⟩
      · rename_i hold
        refine ih h htail (hc.imp_left fun hc => hc.elim id fun hmem => ?_)
        simp only [List.any_eq_true, decide_eq_true_eq, not_exists, not_and, not_not] at hold
        exact hold c hmem

/-- The greedy choice covers whatever the candidates cover. -/
theorem covers_greedy {candidates : List CellSet} {ones : List Cell} (hsubset : ∀ s ∈ candidates, s ⊆ ones)
    (hall : ∀ c ∈ ones, ∃ s ∈ candidates, c ∈ s) : greedy.Covers candidates ones := by
  intro c hc
  have hnone : Progress ones [] := ⟨List.nodup_nil, List.nil_subset _⟩
  exact (covered_greedyFrom hsubset hnone List.drop_zero (.inr (hall c hc))).resolve_left List.not_mem_nil

/-! ### Fresh choices -/

/-- A candidate with a cell that is not in any candidate before it. -/
def Fresh (candidates : List CellSet) (i : Nat) : Prop :=
  ∃ s, candidates[i]? = some s ∧ ∃ c ∈ s, ∀ j < i, ∀ t, candidates[j]? = some t → c ∉ t

/-- A candidate is passed over only if it is covered already, so a chosen one is fresh among all candidates
    and not only among the chosen ones. -/
theorem fresh_of_mem_greedyFrom {ones : List Cell} {candidates : List CellSet} {covered : List Cell} {next : Nat}
    {rest : List CellSet} (hrest : candidates.drop next = rest)
    (hpassed : ∀ j < next, ∀ t, candidates[j]? = some t → t ⊆ covered) {i : Nat}
    (hi : i ∈ greedyFrom ones next covered rest) : Fresh candidates i := by
  induction rest generalizing next covered with
  | nil => cases hi
  | cons first rest ih =>
    obtain ⟨hfirst, htail⟩ := of_drop_eq_cons hrest
    have hpassed' {after : List Cell} (hold : covered ⊆ after) (hnew : first ⊆ after) :
        ∀ j < next + 1, ∀ t, candidates[j]? = some t → t ⊆ after := by
      intro j hj t ht
      rcases Nat.lt_succ_iff_lt_or_eq.mp hj with hj | rfl
      · exact List.Subset.trans (hpassed j hj t ht) hold
      · obtain rfl := Option.some.inj (hfirst.symm.trans ht)
        exact hnew
    rw [greedyFrom_cons] at hi
    split at hi
    · cases hi
    · split at hi
      · rename_i hany
        rcases List.mem_cons.mp hi with rfl | hi
        · obtain ⟨c, hc, hnew⟩ := List.any_eq_true.mp hany
          refine ⟨first, hfirst, c, hc, fun j hj t ht hmem => ?_⟩
          exact of_decide_eq_true hnew (hpassed j hj t ht hmem)
        · exact ih htail (hpassed' (fun c hc => mem_extend.mpr (.inl hc)) fun c hc => mem_extend.mpr (.inr hc)) hi
      · rename_i hold
        simp only [List.any_eq_true, decide_eq_true_eq, not_exists, not_and, not_not] at hold
        exact ih htail (hpassed' (List.Subset.refl _) hold) hi

theorem fresh_of_mem_greedy {candidates : List CellSet} {ones : List Cell} {i : Nat} (hi : i ∈ greedy candidates ones) :
    Fresh candidates i :=
  fresh_of_mem_greedyFrom List.drop_zero (fun _ hj => absurd hj (Nat.not_lt_zero _)) hi

theorem le_of_mem_greedyFrom {ones covered : List Cell} {next i : Nat} {rest : List CellSet}
    (hi : i ∈ greedyFrom ones next covered rest) : next ≤ i := by
  induction rest generalizing next covered with
  | nil => cases hi
  | cons first rest ih =>
    rw [greedyFrom_cons] at hi
    split at hi
    · cases hi
    · split at hi
      · rcases List.mem_cons.mp hi with rfl | hi
        · exact Nat.le_refl _
        · exact Nat.le_of_succ_le (ih hi)
      · exact Nat.le_of_succ_le (ih hi)

theorem pairwise_greedyFrom (ones : List Cell) (next : Nat) (covered : List Cell) (rest : List CellSet) :
    (greedyFrom ones next covered rest).Pairwise (· < ·) := by
  induction rest generalizing next covered with
  | nil => exact .nil
  | cons first rest ih =>
    rw [greedyFrom_cons]
    split
    · exact .nil
    · split
      · exact .cons (fun i hi => le_of_mem_greedyFrom hi) (ih _ _)
      · exact ih _ _

/-- No set is chosen twice, since the later choice has a cell that the earlier one does not have. -/
theorem nodup_chosen (candidates : List CellSet) (ones : List Cell) : (greedy.chosen candidates ones).Nodup := by
  refine (List.pairwise_pmap _).mpr ((pairwise_greedyFrom ones 0 [] candidates).imp_of_mem ?_)
  intro i j _ hmem hlt hi hj hsame
  obtain ⟨t, ht, c, hc, hfresh⟩ := fresh_of_mem_greedy hmem
  have hlater : candidates[j] = t := (List.getElem?_eq_some_iff.mp ht).2
  have hearlier : candidates[i]? = some t := List.getElem?_eq_some_iff.mpr ⟨hi, hsame.trans hlater⟩
  exact hfresh i hlt t hearlier hc

/-! ### The number of choices -/

theorem length_lt_extend {covered : List Cell} (h : covered.Nodup) {s : CellSet} {c : Cell} (hc : c ∈ s) (hnew : c ∉ covered) :
    covered.length < (extend covered s).length := by
  have hsubset : c :: covered ⊆ extend covered s :=
    List.cons_subset.mpr ⟨mem_extend.mpr (.inr hc), fun d hd => mem_extend.mpr (.inl hd)⟩
  exact (List.subperm_of_subset (List.nodup_cons.mpr ⟨hnew, h⟩) hsubset).length_le

/-- Every choice covers one more cell at least. -/
theorem length_greedyFrom_le {ones covered : List Cell} (h : Progress ones covered) {rest : List CellSet}
    (hrest : ∀ s ∈ rest, s ⊆ ones) (next : Nat) : (greedyFrom ones next covered rest).length + covered.length ≤ ones.length := by
  have hcovered : covered.length ≤ ones.length := (List.subperm_of_subset h.nodup h.subset).length_le
  induction rest generalizing next covered with
  | nil => exact (Nat.zero_add covered.length).symm ▸ hcovered
  | cons first rest ih =>
    obtain ⟨hfirst, hrest⟩ := List.forall_mem_cons.mp hrest
    rw [greedyFrom_cons]
    split
    · rwa [List.length_nil, Nat.zero_add]
    · split
      · rename_i hany
        obtain ⟨c, hc, hnew⟩ := List.any_eq_true.mp hany
        have hmore := length_lt_extend h.nodup hc (of_decide_eq_true hnew)
        have hnext := h.extend hfirst
        have hlength := ih hnext hrest (next + 1) (List.subperm_of_subset hnext.nodup hnext.subset).length_le
        rw [List.length_cons]
        omega
      · exact ih h hrest (next + 1) hcovered

/-- At most as many candidates are chosen as there are cells to be covered. -/
theorem length_greedy_le {candidates : List CellSet} {ones : List Cell} (hsubset : ∀ s ∈ candidates, s ⊆ ones) :
    (greedy candidates ones).length ≤ ones.length :=
  length_greedyFrom_le ⟨List.nodup_nil, List.nil_subset _⟩ hsubset 0

/-! ### The choice as a whole -/

/-- If the candidates together are the cells that are to be covered, the greedy choice names candidates in
    their order that together are these cells, too. Each of them has a cell that no earlier choice has, and
    none is contained in a candidate before it, whether that was chosen or passed over. The cells may be
    listed with repetitions, and then every candidate has its turn. -/
theorem greedy_covers_with_fresh_choices (candidates : List CellSet) (ones : List Cell)
    (hsubset : ∀ s ∈ candidates, s ⊆ ones) (hall : ∀ c ∈ ones, ∃ s ∈ candidates, c ∈ s) :
    (greedy candidates ones).Pairwise (· < ·) ∧ (∀ i ∈ greedy candidates ones, i < candidates.length) ∧
    (∀ c, c ∈ ones ↔ ∃ i ∈ greedy candidates ones, ∃ s, candidates[i]? = some s ∧ c ∈ s) ∧
    (∀ i ∈ greedy candidates ones, ∃ s, candidates[i]? = some s ∧
      ∃ c ∈ s, ∀ j ∈ greedy candidates ones, j < i → ∀ t, candidates[j]? = some t → c ∉ t) ∧
    ∀ i ∈ greedy candidates ones, ∀ j < i, ∀ s t, candidates[i]? = some s → candidates[j]? = some t → ¬s ⊆ t := by
  refine ⟨pairwise_greedyFrom ones 0 [] candidates, fun i hi => ?_, fun c => ⟨covers_greedy hsubset hall c, ?_⟩,
    fun i hi => ?_, fun i hi j hj s t hs ht hcontained => ?_⟩
  · obtain ⟨s, hs, -⟩ := fresh_of_mem_greedy hi
    exact (List.getElem?_eq_some_iff.mp hs).1
  · rintro ⟨i, -, s, hs, hc⟩
    exact hsubset s (List.mem_of_getElem? hs) hc
  · obtain ⟨s, hs, c, hc, hfresh⟩ := fresh_of_mem_greedy hi
    exact ⟨s, hs, c, hc, fun j _ hlt => hfresh j hlt⟩
  · obtain ⟨u, hu, c, hc, hfresh⟩ := fresh_of_mem_greedy hi
    obtain rfl := Option.some.inj (hs.symm.trans hu)
    exact hfresh j hj t ht (hcontained hc)

/-- The second candidate is passed over, and the last one comes too late. -/
theorem greedy_covers_with_fresh_choices_passed :
    let candidates : List CellSet := [[(0, 0), (0, 1)], [(0, 1)], [(0, 1), (1, 1)], [(1, 1)]]
    let ones : List Cell := [(0, 0), (0, 1), (1, 1)]
    (∀ s ∈ candidates, s ⊆ ones) ∧ (∀ c ∈ ones, ∃ s ∈ candidates, c ∈ s) ∧ greedy candidates ones = [0, 2] ∧
      ∀ j < 2, ∀ t, candidates[j]? = some t → ¬[(0, 1), (1, 1)] ⊆ t := by
  intro candidates ones
  have hsubset : ∀ s ∈ candidates, s ⊆ ones := by simp [candidates, ones]
  have hall : ∀ c ∈ ones, ∃ s ∈ candidates, c ∈ s := by decide
  have hchoice : greedy candidates ones = [0, 2] := by decide
  obtain ⟨-, -, -, -, hnot⟩ := greedy_covers_with_fresh_choices candidates ones hsubset hall
  rw [hchoice] at hnot
  exact ⟨hsubset, hall, hchoice, fun j hj t ht => hnot 2 (by decide) j hj _ t rfl ht⟩

end Cover
end Minterm
