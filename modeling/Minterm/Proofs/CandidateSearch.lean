import Minterm.Proofs.CandidateGroups
import Minterm.Proofs.Lists

/-! The candidates as a search finds them. The search goes by rounds. Each round joins the groups of the round before
    two by two and takes the unions that are groups of twice the size and that it has not taken yet; the last
    round is the one that finds nothing, or the one of the largest size that the map has room for. At the end the
    groups of all rounds are sorted by their sizes, and those of one size stay in the order in which they have
    been found. Since each round has a size of its own, to sort the groups is to put the later rounds in front. -/

namespace Minterm

/-- The pairs of a list are those of its places `i < j`, by the first place and then by the second. -/
theorem pairs_eq_places {α : Type} (xs : List α) :
    (pairs xs).map (Prod.map some some) =
      (List.range xs.length).flatMap fun i =>
        (List.range' (i + 1) (xs.length - (i + 1))).map fun j => (xs[i]?, xs[j]?) := by
  induction xs with
  | nil => rfl
  | cons x xs ih =>
    have hfirst : (xs.map fun y => (x, y)).map (Prod.map some some) =
        (List.range' 1 xs.length).map fun j => ((x :: xs)[0]?, (x :: xs)[j]?) := by
      refine List.ext_getElem (by simp) fun n hn hn' => ?_
      have hlt : n < xs.length := by simpa using hn
      simp [Nat.add_comm 1 n, hlt]
    have hrest (i : Nat) : ((List.range' (i + 1) (xs.length - (i + 1))).map fun j => (xs[i]?, xs[j]?)) =
        (List.range' (i + 1 + 1) (xs.length + 1 - (i + 1 + 1))).map fun j => ((x :: xs)[i + 1]?, (x :: xs)[j]?) := by
      rw [Nat.add_sub_add_right, Nat.add_comm (i + 1) 1, ← List.map_add_range' (i + 1) (xs.length - (i + 1)) 1,
        List.map_map]
      refine List.map_congr_left fun j _ => ?_
      simp [Nat.add_comm 1 j]
    rw [pairs, List.map_append, ih, hfirst, List.length_cons, List.range_succ_eq_map, List.flatMap_cons,
      List.flatMap_map]
    simp only [hrest]
    rfl

/-! ### Sorting -/

/-- Members of the least size go to the end, in their order. -/
theorem mergeSort_append_of_smaller {α : Type} (size : α → Nat) {n : Nat} {xs ys : List α} (hxs : ∀ x ∈ xs, size x = n)
    (hys : ∀ y ∈ ys, n < size y) :
    (xs ++ ys).mergeSort (fun a b => decide (size b ≤ size a)) =
      ys.mergeSort (fun a b => decide (size b ≤ size a)) ++ xs := by
  have htrans (a b c : α) (hab : decide (size b ≤ size a) = true) (hbc : decide (size c ≤ size b) = true) :
      decide (size c ≤ size a) = true :=
    decide_eq_true (Nat.le_trans (of_decide_eq_true hbc) (of_decide_eq_true hab))
  have htotal (a b : α) : (decide (size b ≤ size a) || decide (size a ≤ size b)) = true := by
    simp only [Bool.or_eq_true, decide_eq_true_eq]
    omega
  -- What is in front on either side is what is larger.
  have hlarge {front back : List α} (hfront : ∀ x ∈ front, n < size x) (hback : ∀ x ∈ back, size x ≤ n) :
      (front ++ back).filter (fun x => n < size x) = front := by
    rw [List.filter_append, List.filter_eq_self.mpr fun x hx => decide_eq_true (hfront x hx),
      List.filter_eq_nil_iff.mpr fun x hx => by simpa using hback x hx, List.append_nil]
  induction xs with
  | nil => rw [List.nil_append, List.append_nil]
  | cons x xs ih =>
    obtain ⟨hx, hxs⟩ := List.forall_mem_cons.mp hxs
    obtain ⟨front, back, hsorted, hrest, hfront⟩ := List.mergeSort_cons htrans htotal x (xs ++ ys)
    have hback : ∀ y ∈ back, size y ≤ n := by
      have hpairwise := hsorted ▸ List.pairwise_mergeSort htrans htotal (x :: (xs ++ ys))
      intro y hy
      have hle := (List.pairwise_cons.mp (List.pairwise_append.mp hpairwise).2.1).1 y hy
      exact hx ▸ of_decide_eq_true hle
    have hlarger : ∀ y ∈ front, n < size y := fun y hy => by
      have hnot := hfront y hy
      simp only [Bool.not_eq_true', decide_eq_false_iff_not, hx] at hnot
      omega
    have hsame := hrest.symm.trans (ih hxs)
    have hfilter := congrArg (List.filter fun x => n < size x) hsame
    rw [hlarge hlarger hback, hlarge (fun y hy => hys y (List.mem_mergeSort.mp hy)) fun y hy => Nat.le_of_eq (hxs y hy)]
      at hfilter
    subst hfilter
    rw [List.cons_append, hsorted, List.append_cancel_left hsame]

/-! ### Rounds -/

/-- Members that are put at the end of a list unless they are in it already. -/
theorem foldl_push_eq_eraseDups {α : Type} [BEq α] [LawfulBEq α] (front xs : List α) :
    xs.foldl (fun found x => if found.contains x then found else found ++ [x]) front.eraseDups =
      (front ++ xs).eraseDups := by
  induction xs generalizing front with
  | nil => rw [List.foldl_nil, List.append_nil]
  | cons x xs ih =>
    have hpush : (if front.eraseDups.contains x then front.eraseDups else front.eraseDups ++ [x]) =
        (front ++ [x]).eraseDups := by
      rw [List.eraseDups_append]
      by_cases hx : x ∈ front <;> simp [hx, List.removeAll, List.eraseDups_cons]
    rw [List.foldl_cons, hpush, ih, List.append_assoc, List.singleton_append]

namespace Layout
variable {layout : Layout}

/-- One round of the search. -/
def round (layout : Layout) (size : Nat) (halves : List CellSet) : List CellSet :=
  (pairs halves).foldl (fun found pair =>
    let joined := CellSet.union pair.1 pair.2
    if joined.length == size && !found.contains joined && CellSet.isGroup layout joined then found ++ [joined]
    else found) []

theorem round_eq_doubled (layout : Layout) (size : Nat) (halves : List CellSet) :
    layout.round size halves = layout.doubled size halves := by
  have hpush := foldl_push_eq_eraseDups [] (((pairs halves).map fun pair => CellSet.union pair.1 pair.2).filter fun s =>
    s.length == size && CellSet.isGroup layout s)
  rw [List.nil_append, List.eraseDups_nil, List.foldl_filter, List.foldl_map] at hpush
  refine Eq.trans (congrArg (fun step => List.foldl step [] (pairs halves)) ?_) hpush
  funext found pair
  dsimp only
  cases (CellSet.union pair.1 pair.2).length == size <;> cases found.contains (CellSet.union pair.1 pair.2) <;>
    cases CellSet.isGroup layout (CellSet.union pair.1 pair.2) <;> rfl

/-- The search from a round on that is to find groups of a size, given those of the round before and all that have
    been found so far. No group is larger than `limit`. -/
inductive Search (layout : Layout) (limit : Nat) : Nat → List CellSet → List CellSet → List CellSet → Prop
  | finished {size : Nat} {previous found : List CellSet} (h : limit < size ∨ previous = []) :
    Search layout limit size previous found found
  | round {size : Nat} {previous found all : List CellSet} (hsize : size ≤ limit) (hprevious : previous ≠ [])
    (hrest : Search layout limit (2 * size) (layout.round size previous) (found ++ layout.round size previous) all) :
    Search layout limit size previous found all

/-- The groups of further rounds, in the order in which they are found. -/
def laterRounds (layout : Layout) : Nat → Nat → List CellSet → List CellSet
  | 0, _, _ => []
  | rounds + 1, size, halves =>
    layout.doubled (2 * size) halves ++ layout.laterRounds rounds (2 * size) (layout.doubled (2 * size) halves)

theorem laterRounds_nil (rounds size : Nat) : layout.laterRounds rounds size [] = [] := by
  induction rounds generalizing size with
  | zero => rfl
  | succ rounds ih => exact ih (2 * size)

theorem length_of_mem_doubled {size : Nat} {halves : List CellSet} {s : CellSet} (h : s ∈ layout.doubled size halves) :
    s.length = size := (mem_doubled.mp h).2.1

theorem lt_length_of_mem_laterRounds {rounds size : Nat} {halves : List CellSet} (hsize : 0 < size) :
    ∀ s ∈ layout.laterRounds rounds size halves, size < s.length := by
  induction rounds generalizing size halves with
  | zero => exact fun s hs => nomatch hs
  | succ rounds ih =>
    intro s hs
    rcases List.mem_append.mp hs with hs | hs
    · rw [length_of_mem_doubled hs]
      omega
    · have hlt := ih (Nat.mul_pos Nat.two_pos hsize) s hs
      omega

theorem search_laterRounds {size : Nat} (hsize : 0 < size) (rounds : Nat) (halves found : List CellSet) :
    Search layout (2 ^ rounds * size) (2 * size) halves found (found ++ layout.laterRounds rounds size halves) := by
  induction rounds generalizing size halves found with
  | zero =>
    rw [laterRounds, List.append_nil]
    exact .finished (.inl (by omega))
  | succ rounds ih =>
    by_cases hnil : halves = []
    · rw [hnil, laterRounds_nil, List.append_nil]
      exact .finished (.inr rfl)
    · have hrest := ih (Nat.mul_pos Nat.two_pos hsize) (layout.doubled (2 * size) halves)
        (found ++ layout.doubled (2 * size) halves)
      rw [← Nat.mul_assoc, ← Nat.pow_succ, List.append_assoc, ← round_eq_doubled] at hrest
      refine .round ?_ hnil ?_
      · exact Nat.mul_le_mul_right size (Nat.le_pow (Nat.succ_pos rounds))
      · rwa [laterRounds, ← round_eq_doubled]

/-- Sorting puts the later rounds in front. -/
theorem mergeSort_laterRounds {size : Nat} (hsize : 0 < size) (rounds : Nat) {halves : List CellSet}
    (hhalves : ∀ s ∈ halves, s.length = size) :
    (halves ++ layout.laterRounds rounds size halves).mergeSort (fun a b => decide (b.length ≤ a.length)) =
      layout.doublings rounds size halves := by
  induction rounds generalizing size halves with
  | zero =>
    have hsorted := mergeSort_append_of_smaller List.length hhalves (List.forall_mem_nil _)
    rwa [List.mergeSort_nil, List.nil_append] at hsorted
  | succ rounds ih =>
    rw [mergeSort_append_of_smaller List.length hhalves (lt_length_of_mem_laterRounds hsize), laterRounds,
      ih (Nat.mul_pos Nat.two_pos hsize) fun s hs => length_of_mem_doubled hs, doublings]

end Layout

namespace KarnaughMap

/-- The candidates of a map over at most four variables are what the search finds from the single cells on, sorted
    by size with the largest in front. -/
theorem candidates_eq_search (map : KarnaughMap) (h : map.vars.length ≤ 4) :
    ∃ found, map.layout.Search (min (2 ^ map.vars.length) 16) 2 (map.ones.map fun cell => [cell])
        (map.ones.map fun cell => [cell]) found ∧
      map.candidates = found.mergeSort fun a b => decide (b.length ≤ a.length) := by
  have hlimit : min (2 ^ map.vars.length) 16 = 2 ^ map.vars.length * 1 := by
    have hle : 2 ^ map.vars.length ≤ 2 ^ 4 := Nat.pow_le_pow_right Nat.two_pos h
    omega
  refine ⟨_, hlimit ▸ Layout.search_laterRounds Nat.one_pos map.vars.length _ _, ?_⟩
  refine (Layout.mergeSort_laterRounds Nat.one_pos map.vars.length fun s hs => ?_).symm
  obtain ⟨cell, -, rfl⟩ := List.mem_map.mp hs
  rfl

end KarnaughMap
end Minterm
