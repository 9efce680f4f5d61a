import Mathlib.Data.List.Induction
import Mathlib.Data.List.Shortlex
import Minterm.ColumnName

/-! Column names in the order of their numbers. Without its last letter a longer name is the name of an earlier
    column, and the number of the column is made of that number and the letter. So names stand in the order
    of words: the shorter ones first, and those of one length as in the alphabet. Hence no two columns
    share a name, and since every word can be taken apart in this way, no word is left out. -/

namespace Minterm

/-! ### Letters -/

theorem letter_lt {i j : Nat} (hj : j < 26) (h : i < j) : letter i < letter j := by
  have hall : ∀ j < 26, ∀ i < j, letter i < letter j := by decide
  exact hall j hj i h

theorem letter_between {i : Nat} (h : i < 26) : 'a' ≤ letter i ∧ letter i ≤ 'z' := by
  have hall : ∀ i < 26, 'a' ≤ letter i ∧ letter i ≤ 'z' := by decide
  exact hall i h

theorem exists_letter {c : Char} (h : 'a' ≤ c ∧ c ≤ 'z') : ∃ i < 26, letter i = c := by
  have hlow : 97 ≤ c.toNat := h.1
  have hhigh : c.toNat ≤ 122 := h.2
  refine ⟨c.toNat - 97, by omega, ?_⟩
  rw [letter, show 'a'.toNat = 97 from rfl, Nat.add_sub_cancel' hlow, Char.ofNat_toNat]

/-! ### Numbers and words -/

theorem columnLetters_of_lt {i : Nat} (h : i < 26) : columnLetters i = [letter i] := by
  rw [columnLetters, if_pos h]

theorem columnLetters_of_le {i : Nat} (h : 26 ≤ i) :
    columnLetters i = columnLetters (i / 26 - 1) ++ [letter (i % 26)] := by
  rw [columnLetters, if_neg (Nat.not_lt.mpr h)]

/-- One more letter behind the name of column `i`. -/
theorem columnLetters_concat (i : Nat) {k : Nat} (h : k < 26) :
    columnLetters (26 * (i + 1) + k) = columnLetters i ++ [letter k] := by
  have hfront : (26 * (i + 1) + k) / 26 - 1 = i := by omega
  have hlast : (26 * (i + 1) + k) % 26 = k := by omega
  rw [columnLetters_of_le (by omega), hfront, hlast]

theorem columnLetters_ne_nil (i : Nat) : columnLetters i ≠ [] := by
  rcases Nat.lt_or_ge i 26 with h | h
  · rw [columnLetters_of_lt h]
    exact List.cons_ne_nil _ _
  · rw [columnLetters_of_le h]
    exact List.concat_ne_nil _ _

theorem between_of_mem_columnLetters {i : Nat} : ∀ c ∈ columnLetters i, 'a' ≤ c ∧ c ≤ 'z' := by
  induction i using columnLetters.induct with
  | case1 i hi =>
    rw [columnLetters_of_lt hi]
    exact List.forall_mem_singleton.mpr (letter_between hi)
  | case2 i hi ih =>
    rw [columnLetters_of_le (Nat.le_of_not_lt hi)]
    refine List.forall_mem_append.mpr ⟨ih, List.forall_mem_singleton.mpr (letter_between ?_)⟩
    exact Nat.mod_lt _ (by decide)

/-- Every word of letters is the name of a column. -/
theorem exists_columnLetters {word : List Char} (hne : word ≠ []) (h : ∀ c ∈ word, 'a' ≤ c ∧ c ≤ 'z') :
    ∃ i, columnLetters i = word := by
  induction word using List.reverseRecOn with
  | nil => exact absurd rfl hne
  | append_singleton front c ih =>
    obtain ⟨hfront, hc⟩ := List.forall_mem_append.mp h
    obtain ⟨k, hk, rfl⟩ := exists_letter (hc c (List.mem_singleton_self c))
    by_cases hnil : front = []
    · subst hnil
      exact ⟨k, columnLetters_of_lt hk⟩
    · obtain ⟨i, rfl⟩ := ih hnil hfront
      exact ⟨_, columnLetters_concat i hk⟩

/-! ### Order -/

/-- Words of one length that differ already are not put in another order by what follows. -/
theorem lex_append {α : Type} {r : α → α → Prop} {s t : List α} (h : List.Lex r s t) (hlength : s.length = t.length)
    (u v : List α) : List.Lex r (s ++ u) (t ++ v) := by
  induction h with
  | nil => cases hlength
  | rel hr => exact .rel hr
  | cons _ ih => exact .cons (ih (Nat.succ.inj hlength))

theorem shortlex_concat {α : Type} {r : α → α → Prop} {s t : List α} (h : List.Shortlex r s t) (x y : α) :
    List.Shortlex r (s ++ [x]) (t ++ [y]) := by
  rcases List.shortlex_def.mp h with hlength | ⟨hlength, hlex⟩
  · refine .of_length_lt ?_
    rw [List.length_append, List.length_append]
    exact Nat.succ_lt_succ hlength
  · refine .of_lex ?_ (lex_append hlex hlength [x] [y])
    rw [List.length_append, List.length_append, hlength]
    rfl

/-- A later column has a later name. -/
theorem shortlex_columnLetters {i j : Nat} (h : i < j) : List.Shortlex (· < ·) (columnLetters i) (columnLetters j) := by
  induction j using columnLetters.induct generalizing i with
  | case1 j hj =>
    rw [columnLetters_of_lt hj, columnLetters_of_lt (h.trans hj)]
    exact (List.shortlex_singleton_iff _ _).mpr (letter_lt hj h)
  | case2 j hj ih =>
    rw [columnLetters_of_le (Nat.le_of_not_lt hj)]
    rcases Nat.lt_or_ge i 26 with hi | hi
    · rw [columnLetters_of_lt hi]
      refine .of_length_lt ?_
      rw [List.length_append]
      exact Nat.succ_lt_succ (List.length_pos_iff.mpr (columnLetters_ne_nil _))
    · rw [columnLetters_of_le hi]
      have hfronts : i / 26 - 1 = j / 26 - 1 ∧ i % 26 < j % 26 ∨ i / 26 - 1 < j / 26 - 1 := by omega
      rcases hfronts with ⟨hsame, hlast⟩ | hlt
      · rw [hsame]
        have hletter := letter_lt (Nat.mod_lt j (by decide)) hlast
        exact ((List.shortlex_singleton_iff _ _).mpr hletter).append_left _
      · exact shortlex_concat (ih hlt) _ _

theorem columnLetters_injective {i j : Nat} (h : columnLetters i = columnLetters j) : i = j := by
  rcases Nat.lt_trichotomy i j with hlt | heq | hlt
  · exact absurd (h ▸ shortlex_columnLetters hlt) (irrefl_of (List.Shortlex (· < ·)) _)
  · exact heq
  · exact absurd (h ▸ shortlex_columnLetters hlt) (irrefl_of (List.Shortlex (· < ·)) _)

/-! ### Names -/

theorem toList_columnName (i : Nat) : (columnName i).toList = columnLetters i :=
  String.toList_ofList

theorem columnName_ne_empty (i : Nat) : columnName i ≠ "" :=
  fun h => columnLetters_ne_nil i (String.ofList_eq_empty_iff.mp h)

theorem columnName_injective {i j : Nat} (h : columnName i = columnName j) : i = j :=
  columnLetters_injective (String.ofList_injective h)

end Minterm
