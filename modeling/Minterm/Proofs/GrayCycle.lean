import Mathlib.Data.List.Chain
import Minterm.Proofs.BitRows

/-! The Gray code as a cycle: neighbours differ in one place, and so do the last row and the first. By induction
    on the width: inside the two halves it is the shorter code that is followed, once forwards and once
    backwards. At the seam the same row of the shorter code stands on both sides, its last one; and where the
    cycle closes its first one does. So the first row and the last have to be known as well. -/

namespace Minterm

/-! ### Differences -/

section Differences
variable {α β : Type} [DecidableEq α] [DecidableEq β]

theorem differences_cons (x y : α) (xs ys : List α) :
    differences (x :: xs) (y :: ys) = differences xs ys + if x ≠ y then 1 else 0 := by
  rw [differences, List.zip_cons_cons, List.countP_cons, differences]
  simp only [decide_eq_true_eq]

theorem differences_cons_self (x : α) (xs ys : List α) : differences (x :: xs) (x :: ys) = differences xs ys := by
  rw [differences_cons, if_neg (not_not.mpr rfl), Nat.add_zero]

theorem differences_self (xs : List α) : differences xs xs = 0 := by
  induction xs with
  | nil => rfl
  | cons x xs ih => rw [differences_cons_self, ih]

theorem differences_cons_of_ne {x y : α} (h : x ≠ y) (xs : List α) : differences (x :: xs) (y :: xs) = 1 := by
  rw [differences_cons, differences_self, if_pos h]

theorem differences_comm (xs ys : List α) : differences xs ys = differences ys xs := by
  induction xs generalizing ys with
  | nil => cases ys <;> rfl
  | cons x xs ih =>
    cases ys with
    | nil => rfl
    | cons y ys =>
      rw [differences_cons, differences_cons, ih]
      simp only [ne_comm]

theorem differences_map {f : α → β} (hf : Function.Injective f) (xs ys : List α) :
    differences (xs.map f) (ys.map f) = differences xs ys := by
  rw [differences, List.zip_map, List.countP_map, differences]
  refine List.countP_congr fun pair _ => ?_
  simp [hf.eq_iff]

end Differences

/-! ### Texts -/

/-- The code of a bit. -/
def bitByte (b : Bool) : UInt8 := if b then 49 else 48

theorem bitByte_injective : Function.Injective bitByte := fun b c => by
  revert b c
  decide

theorem utf8Bytes_bitText (bits : List Bool) : utf8Bytes (bitText bits) = bits.map bitByte := by
  rw [utf8Bytes, bitText, String.toList_ofList]
  induction bits with
  | nil => rfl
  | cons b bits ih =>
    rw [List.map_cons, List.flatMap_cons, ih]
    cases b <;> rfl

theorem hamming_bitText (bits other : List Bool) : hamming (bitText bits) (bitText other) = differences bits other := by
  rw [hamming, utf8Bytes_bitText, utf8Bytes_bitText]
  exact differences_map bitByte_injective bits other

theorem length_bitText (bits : List Bool) : (bitText bits).length = bits.length := by
  rw [bitText, String.length_ofList, List.length_map]

theorem bitText_injective : Function.Injective bitText := by
  intro bits other h
  refine List.map_injective_iff.mpr (fun b c => ?_) (String.ofList_inj.mp h)
  revert b c
  decide

theorem exists_bitText {s : String} : (∃ bits, bitText bits = s) ↔ ∀ c ∈ s.toList, c = '0' ∨ c = '1' := by
  constructor
  · rintro ⟨bits, rfl⟩ c hc
    rw [bitText, String.toList_ofList, List.mem_map] at hc
    obtain ⟨b, -, rfl⟩ := hc
    cases b <;> simp
  · intro h
    refine ⟨s.toList.map (· == '1'), Eq.trans (congrArg String.ofList ?_) String.ofList_toList⟩
    rw [List.map_map]
    refine (List.map_congr_left fun c hc => ?_).trans (List.map_id _)
    rcases h c hc with rfl | rfl <;> rfl

/-! ### The cycle -/

theorem head?_grayCode (n : Nat) : (grayCode n).head? = some (List.replicate n false) := by
  induction n with
  | zero => rfl
  | succ n ih => rw [grayCode, List.head?_append, List.head?_map, ih]; rfl

theorem getLast?_grayCode (n : Nat) : (grayCode (n + 1)).getLast? = some (true :: List.replicate n false) := by
  rw [grayCode, List.getLast?_append, List.getLast?_map, List.getLast?_reverse, head?_grayCode]
  rfl

/-- Each row of the code differs from the next one in one place. -/
theorem isChain_grayCode (n : Nat) : (grayCode n).IsChain fun bits next => differences bits next = 1 := by
  induction n with
  | zero => exact List.isChain_singleton _
  | succ n ih =>
    rw [grayCode, List.isChain_append, List.isChain_map, List.isChain_map, List.isChain_reverse]
    simp only [differences_cons_self]
    refine ⟨ih, ?_, ?_⟩
    · simpa only [differences_comm] using ih
    · -- At the seam the last row of the shorter code is followed by itself.
      rw [List.getLast?_map, List.head?_map, List.head?_reverse]
      intro _ hlast _ hfirst
      obtain ⟨row, hrow, rfl⟩ := Option.map_eq_some_iff.mp hlast
      obtain ⟨other, hother, rfl⟩ := Option.map_eq_some_iff.mp hfirst
      obtain rfl := Option.some.inj (hrow.symm.trans hother)
      exact differences_cons_of_ne Bool.false_ne_true row

/-- The row after a place of the cycle, where the first row comes after the last one, differs in one place. -/
theorem differences_next {n i : Nat} (hn : n ≠ 0) (hi : i < 2 ^ n) :
    ∃ bits next, (grayCode n)[i]? = some bits ∧ (grayCode n)[(i + 1) % 2 ^ n]? = some next ∧ differences bits next = 1 := by
  rcases Nat.lt_or_ge (i + 1) (2 ^ n) with hlt | hge
  · have hnext : i + 1 < (grayCode n).length := by rwa [length_grayCode]
    refine ⟨_, _, List.getElem?_eq_getElem (Nat.lt_of_succ_lt hnext), ?_,
      List.isChain_iff_getElem.mp (isChain_grayCode n) i hnext⟩
    rw [Nat.mod_eq_of_lt hlt, List.getElem?_eq_getElem hnext]
  · obtain ⟨n, rfl⟩ := Nat.exists_eq_succ_of_ne_zero hn
    have hlast : i = 2 ^ (n + 1) - 1 := by omega
    refine ⟨true :: List.replicate n false, List.replicate (n + 1) false, ?_, ?_, ?_⟩
    · rw [hlast, ← length_grayCode, ← List.getLast?_eq_getElem?, getLast?_grayCode]
    · rw [hlast, Nat.sub_add_cancel (Nat.two_pow_pos _), Nat.mod_self, ← List.head?_eq_getElem?, head?_grayCode]
    · exact differences_cons_of_ne Bool.false_ne_true.symm _

/-- Written out, the code of a width lists every text of that many digits `0` and `1` once, `2 ^ n` in all. Except
    for the width zero, every entry has distance one from the next, and so has the last one from the first. -/
theorem gray_code_closes_a_cycle (n : Nat) :
    (grayTexts n).length = 2 ^ n ∧ (grayTexts n).Nodup ∧
    (∀ s : String, s ∈ grayTexts n ↔ s.length = n ∧ ∀ c ∈ s.toList, c = '0' ∨ c = '1') ∧
    (n ≠ 0 → ∀ i < 2 ^ n, ∃ code next,
      (grayTexts n)[i]? = some code ∧ (grayTexts n)[(i + 1) % 2 ^ n]? = some next ∧ hamming code next = 1) := by
  refine ⟨by rw [grayTexts, List.length_map, length_grayCode], ?_, fun s => ?_, fun hn i hi => ?_⟩
  · exact (nodup_grayCode n).map bitText_injective
  · rw [← exists_bitText, grayTexts, List.mem_map]
    constructor
    · rintro ⟨bits, hbits, rfl⟩
      exact ⟨(length_bitText bits).trans (mem_grayCode.mp hbits), bits, rfl⟩
    · rintro ⟨hlength, bits, rfl⟩
      exact ⟨bits, mem_grayCode.mpr ((length_bitText bits).symm.trans hlength), rfl⟩
  · obtain ⟨bits, next, hbits, hnext, hdiff⟩ := differences_next hn hi
    refine ⟨bitText bits, bitText next, ?_, ?_, by rw [hamming_bitText, hdiff]⟩
    · rw [grayTexts, List.getElem?_map, hbits, Option.map_some]
    · rw [grayTexts, List.getElem?_map, hnext, Option.map_some]

/-- The code of width three closes at its last entry. -/
theorem gray_code_closes_a_cycle_three :
    3 ≠ 0 ∧ 7 < 2 ^ 3 ∧ ∃ code next, (grayTexts 3)[7]? = some code ∧ (grayTexts 3)[(7 + 1) % 2 ^ 3]? = some next ∧
      hamming code next = 1 ∧ code = "100" ∧ next = "000" := by
  obtain ⟨-, -, -, hcycle⟩ := gray_code_closes_a_cycle 3
  obtain ⟨code, next, hcode, hnext, hdistance⟩ := hcycle (by decide) 7 (by decide)
  refine ⟨by decide, by decide, code, next, hcode, hnext, hdistance, ?_, ?_⟩
  · exact Option.some.inj (hcode.symm.trans (by decide))
  · exact Option.some.inj (hnext.symm.trans (by decide))

end Minterm
