import Minterm.Enumeration
import Minterm.Proofs.Equivalence

/-! An enumeration counts in binary. Its rows are the binary digits of 0, 1, 2 and so on: to count a row up is to
    add one to the number (`increment_binaryRow`), because turning trailing ones into zeros is what a carry
    does. So after `k` calls the digits of `k` are due (`after_start`), and from call `2 ^ n` on nothing is. -/

namespace Minterm

/-! ### Binary digits -/

/-- The last `n` binary digits of a number, the most significant one first. -/
def binaryRow : Nat → Nat → List Bool
  | 0, _ => []
  | n + 1, k => k.testBit n :: binaryRow n k

theorem length_binaryRow (n k : Nat) : (binaryRow n k).length = n := by
  induction n with
  | zero => rfl
  | succ n ih => rw [binaryRow, List.length_cons, ih]

theorem binaryRow_zero (n : Nat) : binaryRow n 0 = List.replicate n false := by
  induction n with
  | zero => rfl
  | succ n ih => rw [binaryRow, ih, Nat.zero_testBit, List.replicate_succ]

/-- The last digit is split off. -/
theorem binaryRow_concat (n k : Nat) : binaryRow (n + 1) k = binaryRow n (k / 2) ++ [k.testBit 0] := by
  induction n with
  | zero => rfl
  | succ n ih => rw [binaryRow, ih, binaryRow, Nat.testBit_div_two, List.cons_append]

theorem getElem?_binaryRow {n j : Nat} (k : Nat) (h : j < n) : (binaryRow n k)[j]? = some (k.testBit (n - 1 - j)) := by
  induction n generalizing j with
  | zero => cases h
  | succ n ih =>
    cases j with
    | zero => rfl
    | succ j =>
      rw [binaryRow, List.getElem?_cons_succ, ih (Nat.lt_of_succ_lt_succ h)]
      congr 2
      omega

theorem binaryRow_add_two_pow {m n : Nat} (k : Nat) (h : m ≤ n) : binaryRow m (2 ^ n + k) = binaryRow m k := by
  induction m with
  | zero => rfl
  | succ m ih => rw [binaryRow, binaryRow, ih (Nat.le_of_succ_le h), Nat.testBit_two_pow_add_gt h]

/-- In binary order row number `k` holds the digits of `k`. -/
theorem getElem?_bitRows {n k : Nat} (h : k < 2 ^ n) : (bitRows n)[k]? = some (binaryRow n k) := by
  induction n generalizing k with
  | zero =>
    obtain rfl : k = 0 := by omega
    rfl
  | succ n ih =>
    rw [Nat.pow_succ] at h
    rcases Nat.lt_or_ge k (2 ^ n) with hlt | hge
    · rw [bitRows, List.getElem?_append_left (by rwa [List.length_map, length_bitRows]), List.getElem?_map, ih hlt, binaryRow,
        Nat.testBit_lt_two_pow hlt, Option.map_some]
    · obtain ⟨i, rfl⟩ := Nat.exists_eq_add_of_le hge
      have hi : i < 2 ^ n := by omega
      rw [bitRows, List.getElem?_append_right (by rw [List.length_map, length_bitRows]; exact hge), List.length_map,
        length_bitRows, Nat.add_sub_cancel_left, List.getElem?_map, ih hi, binaryRow, Nat.testBit_two_pow_add_eq,
        Nat.testBit_lt_two_pow hi, binaryRow_add_two_pow i (Nat.le_refl n), Option.map_some, Bool.not_false]

/-! ### Counting up -/

theorem modify_append {α : Type} (f : α → α) (front : List α) (x : α) (back : List α) :
    (front ++ x :: back).modify front.length f = front ++ f x :: back := by
  rw [List.modify_eq_take_drop, List.take_left, List.drop_left]
  rfl

/-- One turn of the loop: a false bit takes the carry, and a true one passes it on. -/
theorem ripple_append (front : List Bool) (b : Bool) (back : List Bool) :
    ripple (front ++ b :: back) (front.length + 1) =
      if b then ripple (front ++ false :: back) front.length else some (front ++ true :: back) := by
  rw [ripple]
  simp only [modify_append]
  have hget : (front ++ (!b) :: back)[front.length]? = some (!b) := by simp
  rw [hget]
  cases b <;> rfl

/-- A carry into the digits of `k` makes them those of `k + 1`, unless it runs off the front, and leaves alone what
    stands behind them. -/
theorem ripple_binaryRow {n k : Nat} (h : k < 2 ^ n) (back : List Bool) :
    ripple (binaryRow n k ++ back) n = if k + 1 < 2 ^ n then some (binaryRow n (k + 1) ++ back) else none := by
  induction n generalizing k back with
  | zero =>
    obtain rfl : k = 0 := by omega
    rfl
  | succ n ih =>
    have hstep (b : Bool) := ripple_append (binaryRow n (k / 2)) b back
    rw [length_binaryRow] at hstep
    rw [Nat.pow_succ] at h ⊢
    rw [binaryRow_concat, binaryRow_concat, List.append_assoc, List.append_assoc, List.singleton_append,
      List.singleton_append, hstep, Nat.testBit_zero, Nat.testBit_zero]
    rcases Nat.mod_two_eq_zero_or_one k with heven | hodd
    · have hhalf : (k + 1) / 2 = k / 2 := by omega
      have hlast : (k + 1) % 2 = 1 := by omega
      rw [heven, hhalf, hlast, if_neg (by decide), if_pos (by omega)]
      rfl
    · have hhalf : (k + 1) / 2 = k / 2 + 1 := by omega
      have hlast : (k + 1) % 2 = 0 := by omega
      rw [hodd, hhalf, hlast, if_pos (by decide), ih (by omega)]
      exact if_congr (by omega) rfl rfl

theorem increment_binaryRow {n k : Nat} (h : k < 2 ^ n) :
    increment (binaryRow n k) = if k + 1 < 2 ^ n then some (binaryRow n (k + 1)) else none := by
  have hcarry := ripple_binaryRow h []
  rw [List.append_nil, List.append_nil] at hcarry
  rw [increment, length_binaryRow, hcarry]

namespace Enumeration

/-! ### Runs -/

/-- The enumeration after a number of calls. -/
def after : Nat → Enumeration → Enumeration
  | 0, e => e
  | k + 1, e => (after k e).next.2

/-- What call number `k` gives, counted from zero. -/
def item (vars : List String) (k : Nat) : Option (Bindings Bool) := ((start vars).after k).next.1

/-- The enumeration in which the digits of `k` are due, or nothing if that row would be too long. -/
def atNumber (vars : List String) (k : Nat) : Enumeration :=
  ⟨vars, if k < 2 ^ vars.length then some (binaryRow vars.length k) else none⟩

/-- A call gives the assignment of the number that it finds, and leaves the next number. -/
theorem next_atNumber (vars : List String) (k : Nat) :
    (atNumber vars k).next =
      (if k < 2 ^ vars.length then some (assign vars (binaryRow vars.length k)) else none, atNumber vars (k + 1)) := by
  unfold atNumber
  split
  · rename_i hk
    show (some _, (⟨vars, increment (binaryRow vars.length k)⟩ : Enumeration)) = _
    rw [increment_binaryRow hk]
  · rename_i hk
    rw [if_neg fun h => hk (Nat.lt_of_succ_lt h)]
    rfl

theorem after_start (vars : List String) (k : Nat) : (start vars).after k = atNumber vars k := by
  induction k with
  | zero => rw [after, start, atNumber, if_pos (Nat.two_pow_pos _), binaryRow_zero]
  | succ k ih => rw [after, ih, next_atNumber]

theorem item_eq (vars : List String) (k : Nat) :
    item vars k = if k < 2 ^ vars.length then some (assign vars (binaryRow vars.length k)) else none := by
  rw [item, after_start, next_atNumber]

theorem item_eq_some {vars : List String} {k : Nat} {bindings : Bindings Bool} :
    item vars k = some bindings ↔ k < 2 ^ vars.length ∧ assign vars (binaryRow vars.length k) = bindings := by
  rw [item_eq, Option.ite_none_right_eq_some, Option.some.injEq]

/-- The calls give the members of the list of all assignments, one after another. -/
theorem item_eq_getElem? (vars : List String) (k : Nat) : item vars k = (assignments vars)[k]? := by
  rw [item_eq, assignments, List.getElem?_map]
  split
  · rename_i hk
    rw [getElem?_bitRows hk, Option.map_some]
  · rename_i hk
    rw [List.getElem?_eq_none (by rw [length_bitRows]; exact Nat.le_of_not_lt hk), Option.map_none]

/-- An enumeration of `n` names gives `2 ^ n` assignments, those of the list in its order, and nothing ever after.
    Number `k` binds the names of the list and no others, each once, and each to the binary digit of `k` that
    belongs to its last place. -/
theorem enumeration_counts_in_binary (vars : List String) (k : Nat) :
    item vars k = (assignments vars)[k]? ∧ ((∃ bindings, item vars k = some bindings) ↔ k < 2 ^ vars.length) ∧
    ∀ bindings, item vars k = some bindings →
      bindings.names.Nodup ∧ (∀ name, name ∈ bindings.names ↔ name ∈ vars) ∧
      ∀ j name, vars[j]? = some name → name ∉ vars.drop (j + 1) →
        bindings.value? name = some (k.testBit (vars.length - 1 - j)) := by
  refine ⟨item_eq_getElem? vars k, ?_, fun bindings hitem => ⟨?_, fun name => ?_, fun j name hname hlast => ?_⟩⟩
  · simp only [item_eq_some, exists_and_left, exists_eq', and_true]
  · obtain ⟨-, rfl⟩ := item_eq_some.mp hitem
    exact Bindings.nodup_names_ofList _
  · rw [Bindings.mem_names, isSome_value?_of_mem (List.mem_of_getElem? ((item_eq_getElem? vars k).symm.trans hitem))]
  · obtain ⟨-, rfl⟩ := item_eq_some.mp hitem
    obtain ⟨hj, -⟩ := List.getElem?_eq_some_iff.mp hname
    rw [assign, Bindings.ofList, Bindings.value?_setAll_of_last (length_binaryRow _ k) hname hlast, getElem?_binaryRow k hj]

/-- Of three places, the first and the last name the same variable; number 5, which is `101`, is the sixth of
    eight assignments. -/
theorem enumeration_counts_in_binary_repeated :
    item ["x", "y", "x"] 5 = some [("x", true), ("y", false)] ∧ (["x", "y", "x"] : List String)[2]? = some "x" ∧
      "x" ∉ (["x", "y", "x"] : List String).drop (2 + 1) ∧
      Bindings.value? [("x", true), ("y", false)] "x" = some (Nat.testBit 5 (3 - 1 - 2)) ∧
      ∀ k, 8 ≤ k → item ["x", "y", "x"] k = none := by
  obtain ⟨-, -, hbinds⟩ := enumeration_counts_in_binary ["x", "y", "x"] 5
  have hitem : item ["x", "y", "x"] 5 = some [("x", true), ("y", false)] := by decide
  obtain ⟨-, -, hvalue⟩ := hbinds _ hitem
  refine ⟨hitem, by decide, by decide, hvalue 2 "x" (by decide) (by decide), fun k hk => ?_⟩
  obtain ⟨-, hitems, -⟩ := enumeration_counts_in_binary ["x", "y", "x"] k
  rw [← Option.not_isSome_iff_eq_none, Option.isSome_iff_exists, hitems]
  exact Nat.not_lt.mpr hk

end Enumeration
end Minterm
