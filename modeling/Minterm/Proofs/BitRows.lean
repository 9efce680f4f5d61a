import Mathlib.Algebra.Group.Nat.Defs
import Mathlib.Data.List.Nodup
import Minterm.Assignment
import Minterm.GrayCode

/-! Rows of bits in two orders. Binary order and Gray order both list every row of a length once, so that one
    is a rearrangement of the other. -/

namespace Minterm

/-! ### Binary order -/

theorem mem_bitRows {n : Nat} {row : List Bool} : row ∈ bitRows n ↔ row.length = n := by
  induction n generalizing row with
  | zero => simp [bitRows]
  | succ n ih =>
    simp only [bitRows, List.mem_append, List.mem_map, ih]
    cases row with
    | nil => simp
    | cons b row => cases b <;> simp

theorem length_bitRows (n : Nat) : (bitRows n).length = 2 ^ n := by
  induction n with
  | zero => rfl
  | succ n ih => rw [bitRows, List.length_append, List.length_map, List.length_map, ih, Nat.pow_succ, Nat.mul_two]

theorem nodup_bitRows (n : Nat) : (bitRows n).Nodup := by
  induction n with
  | zero => exact List.nodup_singleton _
  | succ n ih =>
    have hmap (b : Bool) : ((bitRows n).map (b :: ·)).Nodup := ih.map List.cons_injective
    refine (hmap false).append (hmap true) fun row hfalse htrue => ?_
    obtain ⟨_, -, rfl⟩ := List.mem_map.mp hfalse
    obtain ⟨_, -, h⟩ := List.mem_map.mp htrue
    cases h

/-- A row is a front and a back, and the front counts slower. -/
theorem bitRows_add (m n : Nat) :
    bitRows (m + n) = (bitRows m).flatMap fun front => (bitRows n).map (front ++ ·) := by
  induction m with
  | zero => simp [bitRows]
  | succ m ih =>
    rw [Nat.add_right_comm, bitRows, ih, bitRows, List.flatMap_append, List.flatMap_map, List.flatMap_map,
      List.map_flatMap, List.map_flatMap]
    simp only [List.map_map]
    rfl

/-! ### Gray order -/

theorem grayCode_perm (n : Nat) : (grayCode n).Perm (bitRows n) := by
  induction n with
  | zero => exact List.Perm.refl _
  | succ n ih => exact (ih.map _).append (((List.reverse_perm _).trans ih).map _)

theorem mem_grayCode {n : Nat} {bits : List Bool} : bits ∈ grayCode n ↔ bits.length = n :=
  (grayCode_perm n).mem_iff.trans mem_bitRows

theorem length_grayCode (n : Nat) : (grayCode n).length = 2 ^ n :=
  (grayCode_perm n).length_eq.trans (length_bitRows n)

theorem nodup_grayCode (n : Nat) : (grayCode n).Nodup := (grayCode_perm n).nodup_iff.mpr (nodup_bitRows n)

theorem grayCode_ne_nil (n : Nat) : grayCode n ≠ [] :=
  List.ne_nil_of_mem (mem_grayCode.mpr (List.length_replicate (a := false)))

end Minterm
