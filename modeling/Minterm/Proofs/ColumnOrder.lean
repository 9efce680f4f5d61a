import Mathlib.Order.Interval.Set.Nat
import Minterm.Proofs.ColumnNames
import Minterm.Proofs.Synthesis

/-! Columns are named by all words of lowercase letters, each word by its place among them. A loop that takes
    the letters off a number from the last to the first makes the same names (`lettersBefore_succ`). The
    words before the name of column `i` are the names of the columns before it, so there are `i` of them. -/

namespace Minterm

/-- Some letters from `a` to `z`. -/
structure LowerWord (w : String) : Prop where
  ne_empty : w ≠ ""
  letters : ∀ c ∈ w.toList, 'a' ≤ c ∧ c ≤ 'z'

/-- Shorter words stand first, words of one length as in the alphabet. -/
def Before (v w : String) : Prop := v.length < w.length ∨ v.length = w.length ∧ v < w

def wordsBefore (w : String) : Set String := {v | LowerWord v ∧ Before v w}

/-- The letters of the number `n - 1`, taken off from the last to the first and put in front of `word`. -/
def lettersBefore (n : Nat) (word : List Char) : List Char :=
  if n = 0 then word else lettersBefore ((n - 1) / 26) (letter ((n - 1) % 26) :: word)

/-! ### Numbers to words -/

theorem lettersBefore_succ (i : Nat) (word : List Char) : lettersBefore (i + 1) word = columnLetters i ++ word := by
  induction i using columnLetters.induct generalizing word with
  | case1 i hi =>
    rw [lettersBefore, if_neg i.succ_ne_zero, Nat.add_sub_cancel, Nat.div_eq_of_lt hi, Nat.mod_eq_of_lt hi,
      lettersBefore, if_pos rfl, columnLetters_of_lt hi]
    rfl
  | case2 i hi ih =>
    have hquotient : i / 26 = i / 26 - 1 + 1 := by omega
    rw [lettersBefore, if_neg i.succ_ne_zero, Nat.add_sub_cancel, hquotient, ih,
      columnLetters_of_le (Nat.le_of_not_lt hi), List.append_assoc]
    rfl

theorem columnName_eq_lettersBefore (i : Nat) : columnName i = String.ofList (lettersBefore (i + 1) []) := by
  rw [lettersBefore_succ, List.append_nil, columnName]

theorem lowerWord_columnName (i : Nat) : LowerWord (columnName i) where
  ne_empty := columnName_ne_empty i
  letters := by
    rw [toList_columnName]
    exact between_of_mem_columnLetters

theorem exists_columnName {w : String} (h : LowerWord w) : ∃ i, columnName i = w := by
  obtain ⟨i, hi⟩ := exists_columnLetters (mt String.toList_eq_nil_iff.mp h.ne_empty) h.letters
  exact ⟨i, by rw [columnName, hi, String.ofList_toList]⟩

/-! ### Numbers to places -/

theorem before_iff {v w : String} : Before v w ↔ List.Shortlex (· < ·) v.toList w.toList := by
  rw [List.shortlex_def, String.length_toList, String.length_toList]
  rfl

theorem columnName_before {i j : Nat} (h : i < j) : Before (columnName i) (columnName j) := by
  rw [before_iff, toList_columnName, toList_columnName]
  exact shortlex_columnLetters h

theorem columnName_before_iff {i j : Nat} : Before (columnName i) (columnName j) ↔ i < j := by
  refine ⟨fun h => ?_, columnName_before⟩
  by_contra hle
  rcases Nat.eq_or_lt_of_le (Nat.le_of_not_lt hle) with rfl | hlt
  · exact irrefl_of (List.Shortlex (· < ·)) _ (before_iff.mp h)
  · exact asymm_of (List.Shortlex (· < ·)) (before_iff.mp h) (before_iff.mp (columnName_before hlt))

theorem wordsBefore_columnName (i : Nat) : wordsBefore (columnName i) = columnName '' Set.Iio i := by
  ext v
  constructor
  · rintro ⟨hv, hbefore⟩
    obtain ⟨j, rfl⟩ := exists_columnName hv
    exact ⟨j, columnName_before_iff.mp hbefore, rfl⟩
  · rintro ⟨j, hj, rfl⟩
    exact ⟨lowerWord_columnName j, columnName_before hj⟩

theorem finite_wordsBefore (i : Nat) : (wordsBefore (columnName i)).Finite := by
  rw [wordsBefore_columnName]
  exact (Set.finite_Iio i).image columnName

theorem ncard_wordsBefore (i : Nat) : (wordsBefore (columnName i)).ncard = i := by
  rw [wordsBefore_columnName, Set.ncard_image_of_injective _ fun _ _ => columnName_injective, Set.ncard_Iio_nat]

/-- Every column has a word of letters as its name, the one that the loop makes, and a later column has a later
    word. Every word is the name of the column whose number says how many words stand before it. So a
    function synthesized from a table has one name for each input, and no two inputs share one. -/
theorem column_names_enumerate_words :
    (∀ i, columnName i = String.ofList (lettersBefore (i + 1) []) ∧ LowerWord (columnName i)) ∧
    (∀ i j, i < j → Before (columnName i) (columnName j)) ∧
    (∀ w, LowerWord w → (wordsBefore w).Finite ∧ columnName (wordsBefore w).ncard = w) ∧
    ∀ table mode f, VectorFunction.synthesize table mode = .ok f →
      f.inputs.length = table.inputWidth ∧ f.inputs.Nodup := by
  refine ⟨fun i => ⟨columnName_eq_lettersBefore i, lowerWord_columnName i⟩, fun i j => columnName_before,
    fun w hw => ?_, fun table mode f hf => ?_⟩
  · obtain ⟨i, rfl⟩ := exists_columnName hw
    exact ⟨finite_wordsBefore i, by rw [ncard_wordsBefore]⟩
  · exact ⟨VectorFunction.length_inputs hf, (VectorFunction.of_synthesize hf).1 ▸ nodup_columnNames _⟩

/-- The last name of two letters, the first of three, and the table of the identity. -/
theorem column_names_enumerate_words_at_a_length :
    Before "zz" "aaa" ∧ columnName (wordsBefore "aaa").ncard = "aaa" ∧
      ∃ f, VectorFunction.synthesize ⟨[[true], [false]], [[true], [false]]⟩ .boolean = .ok f ∧ f.inputs.Nodup := by
  obtain ⟨-, horder, hplace, hdistinct⟩ := column_names_enumerate_words
  have hlast : columnName 701 = "zz" := by decide +kernel
  have hfirst : columnName 702 = "aaa" := by decide +kernel
  have hword : LowerWord "aaa" := by
    refine ⟨by decide, fun c hc => ?_⟩
    have hmem : c ∈ List.replicate 3 'a' := hc
    obtain rfl := List.eq_of_mem_replicate hmem
    decide
  refine ⟨hlast ▸ hfirst ▸ horder 701 702 (by decide), (hplace "aaa" hword).2, ?_⟩
  exact ⟨_, rfl, (hdistinct ⟨[[true], [false]], [[true], [false]]⟩ .boolean _ rfl).2⟩

end Minterm
