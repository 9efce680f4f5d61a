import Mathlib.Data.Finset.Card

/-! Traversals that may fail and the first step at which they do, partial maps, lists of rows, and lists from
    which repetitions are removed. -/

namespace Minterm

theorem bind_eq_ok {α β ε : Type} {x : Except ε α} {f : α → Except ε β} {b : β} (h : x >>= f = .ok b) :
    ∃ a, x = .ok a ∧ f a = .ok b := by
  cases x with
  | error fault => cases h
  | ok a => exact ⟨a, rfl, h⟩

theorem bind_eq_error {α β ε : Type} {x : Except ε α} {f : α → Except ε β} {fault : ε} (h : x >>= f = .error fault) :
    x = .error fault ∨ ∃ a, x = .ok a ∧ f a = .error fault := by
  cases x with
  | error cause =>
    cases h
    exact Or.inl rfl
  | ok a => exact Or.inr ⟨a, rfl, h⟩

theorem eq_error_of_bind {α β ε : Type} {x : Except ε α} {f : α → Except ε β} {a : α} {fault : ε} (hx : x = .ok a)
    (h : x >>= f = .error fault) : f a = .error fault := by
  subst hx
  exact h

theorem map_eq_ok {α β ε : Type} {x : Except ε α} {f : α → β} {b : β} : x.map f = .ok b ↔ ∃ a, x = .ok a ∧ f a = b := by
  cases x with
  | error fault => exact iff_of_false (fun h => nomatch h) fun ⟨_, h, _⟩ => nomatch h
  | ok a => simp [Except.map]

/-- What a traversal does with its first step `x` and all others, `y`. -/
theorem bind_cons_eq_ok {α ε : Type} {x : Except ε α} {y : Except ε (List α)} {result : List α} :
    (do let first ← x; let rest ← y; return first :: rest) = .ok result ↔
      ∃ first rest, x = .ok first ∧ y = .ok rest ∧ first :: rest = result := by
  constructor
  · intro h
    obtain ⟨first, hfirst, h⟩ := bind_eq_ok h
    obtain ⟨rest, hrest, h⟩ := bind_eq_ok h
    exact ⟨first, rest, hfirst, hrest, Except.ok.inj h⟩
  · rintro ⟨first, rest, rfl, rfl, rfl⟩
    rfl

theorem bind_cons_eq_error {α ε : Type} {x : Except ε α} {y : Except ε (List α)} {fault : ε} :
    (do let first ← x; let rest ← y; return first :: rest) = .error fault ↔
      x = .error fault ∨ (∃ first, x = .ok first) ∧ y = .error fault := by
  constructor
  · intro h
    rcases bind_eq_error h with hx | ⟨first, hfirst, h⟩
    · exact Or.inl hx
    · rcases bind_eq_error h with hy | ⟨rest, -, h⟩
      · exact Or.inr ⟨⟨first, hfirst⟩, hy⟩
      · cases h
  · rintro (rfl | ⟨⟨first, rfl⟩, rfl⟩) <;> rfl

/-- Some member fits `Q`, with its place, and every member in front of it fits `P`. -/
def FirstAt {α : Type} (P : α → Prop) (Q : Nat → α → Prop) (xs : List α) : Prop :=
  ∃ front x back, xs = front ++ x :: back ∧ (∀ y ∈ front, P y) ∧ Q front.length x

theorem not_firstAt_nil {α : Type} {P : α → Prop} {Q : Nat → α → Prop} : ¬ FirstAt P Q [] := by
  rintro ⟨front, x, back, h, -⟩
  exact List.append_ne_nil_of_right_ne_nil front (List.cons_ne_nil x back) h.symm

theorem firstAt_cons {α : Type} {P : α → Prop} {Q : Nat → α → Prop} {x : α} {xs : List α} :
    FirstAt P Q (x :: xs) ↔ Q 0 x ∨ P x ∧ FirstAt P (fun i => Q (i + 1)) xs := by
  constructor
  · rintro ⟨front, y, back, h, hfront, hy⟩
    rcases front with _ | ⟨z, front⟩
    · obtain ⟨rfl, -⟩ := List.cons.inj h
      exact Or.inl hy
    · obtain ⟨rfl, rfl⟩ := List.cons.inj h
      obtain ⟨hz, hfront⟩ := List.forall_mem_cons.mp hfront
      exact Or.inr ⟨hz, front, y, back, rfl, hfront, hy⟩
  · rintro (hx | ⟨hx, front, y, back, rfl, hfront, hy⟩)
    · exact ⟨[], x, xs, rfl, List.forall_mem_nil _, hx⟩
    · exact ⟨x :: front, y, back, rfl, List.forall_mem_cons.mpr ⟨hx, hfront⟩, hy⟩

/-- A traversal succeeds with the results of all its steps. -/
theorem mapM_eq_ok {α β ε : Type} {f : α → Except ε β} {xs : List α} {ys : List β} :
    xs.mapM f = .ok ys ↔ xs.map f = ys.map .ok := by
  induction xs generalizing ys with
  | nil => cases ys <;> simp [pure, Except.pure]
  | cons x xs ih =>
    rw [List.mapM_cons, bind_cons_eq_ok, List.map_cons]
    cases ys with
    | nil => exact iff_of_false (fun ⟨_, _, _, _, h⟩ => nomatch h) fun h => nomatch h
    | cons y ys => simp only [ih, List.map_cons, List.cons.injEq, existsAndEq, and_true]

/-- A traversal fails with the fault of the first step that fails. -/
theorem mapM_eq_error {α β ε : Type} {f : α → Except ε β} {xs : List α} {fault : ε} :
    xs.mapM f = .error fault ↔ FirstAt (fun x => ∃ y, f x = .ok y) (fun _ x => f x = .error fault) xs := by
  induction xs with
  | nil => exact iff_of_false (fun h => nomatch h) not_firstAt_nil
  | cons x xs ih => rw [List.mapM_cons, bind_cons_eq_error, firstAt_cons, ih]

theorem getElem?_mapM {α β ε : Type} {f : α → Except ε β} {xs : List α} {ys : List β} (h : xs.mapM f = .ok ys)
    {i : Nat} (hi : i < xs.length) : ∃ y, ys[i]? = some y ∧ f xs[i] = .ok y := by
  have hget := congrArg (·[i]?) (mapM_eq_ok.mp h)
  simp only [List.getElem?_map, List.getElem?_eq_getElem hi, Option.map_some] at hget
  obtain ⟨y, hy, hf⟩ := Option.map_eq_some_iff.mp hget.symm
  exact ⟨y, hy, hf.symm⟩

theorem exists_mapM_eq_ok {α β ε : Type} {f : α → Except ε β} {xs : List α} :
    (∃ ys, xs.mapM f = .ok ys) ↔ ∀ x ∈ xs, ∃ y, f x = .ok y := by
  simp only [mapM_eq_ok]
  induction xs with
  | nil => exact iff_of_true ⟨[], rfl⟩ fun x hx => nomatch hx
  | cons x xs ih =>
    rw [List.forall_mem_cons, ← ih]
    constructor
    · rintro ⟨ys, h⟩
      cases ys with
      | nil => cases h
      | cons y ys => exact ⟨⟨y, (List.cons.inj h).1⟩, ys, (List.cons.inj h).2⟩
    · rintro ⟨⟨y, hy⟩, ys, hys⟩
      exact ⟨y :: ys, by rw [List.map_cons, List.map_cons, hy, hys]⟩

/-- Traversals agree, also in their faults, if all steps do. -/
theorem mapM_congr {α β ε : Type} {f g : α → Except ε β} {xs : List α} (h : ∀ x ∈ xs, f x = g x) :
    xs.mapM f = xs.mapM g := by
  induction xs with
  | nil => rfl
  | cons x xs ih =>
    obtain ⟨hx, hxs⟩ := List.forall_mem_cons.mp h
    rw [List.mapM_cons, List.mapM_cons, hx, ih hxs]

/-- If every step succeeds with a result that fits its member, the traversal does. -/
theorem exists_mapM_forall₂ {α β ε : Type} {f : α → Except ε β} {P : α → β → Prop} {xs : List α}
    (h : ∀ x ∈ xs, ∃ y, f x = .ok y ∧ P x y) : ∃ ys, xs.mapM f = .ok ys ∧ List.Forall₂ P xs ys := by
  induction xs with
  | nil => exact ⟨[], rfl, .nil⟩
  | cons x xs ih =>
    obtain ⟨⟨y, hy, hfits⟩, hrest⟩ := List.forall_mem_cons.mp h
    obtain ⟨ys, hys, hpairs⟩ := ih hrest
    exact ⟨y :: ys, by rw [List.mapM_cons, hy, hys]; rfl, .cons hfits hpairs⟩

/-- If every step fails in one way, the traversal of any list but the empty one does. -/
theorem mapM_of_error {α β ε : Type} {f : α → Except ε β} {xs : List α} {fault : ε} (hne : xs ≠ [])
    (h : ∀ x ∈ xs, f x = .error fault) : xs.mapM f = .error fault := by
  cases xs with
  | nil => exact absurd rfl hne
  | cons x xs =>
    rw [List.mapM_cons, h x List.mem_cons_self]
    rfl

theorem foldlM_of_error {α β ε : Type} {step : β → α → Except ε β} {xs : List α} {fault : ε} (hne : xs ≠ [])
    (h : ∀ x ∈ xs, ∀ acc, step acc x = .error fault) (acc : β) : xs.foldlM step acc = .error fault := by
  cases xs with
  | nil => exact absurd rfl hne
  | cons x xs =>
    rw [List.foldlM_cons, h x List.mem_cons_self]
    rfl

/-- Results that are put one in front of another are collected in reverse. -/
theorem foldlM_push {α β ε : Type} {step : List β → α → Except ε (List β)} {result : α → β} {xs : List α}
    (h : ∀ x ∈ xs, ∀ acc, step acc x = .ok (result x :: acc)) (acc : List β) :
    xs.foldlM step acc = .ok ((xs.map result).reverse ++ acc) := by
  induction xs generalizing acc with
  | nil => rfl
  | cons x xs ih =>
    obtain ⟨hx, hxs⟩ := List.forall_mem_cons.mp h
    rw [List.foldlM_cons, hx, List.map_cons, List.reverse_cons, List.append_assoc]
    exact ih hxs _

/-- The members of a list, fetched one after another. -/
theorem map_getD_range {α : Type} (xs : List α) (default : α) :
    (List.range xs.length).map (fun i => xs[i]?.getD default) = xs := by
  refine List.ext_getElem (by simp) fun i hi hi' => ?_
  rw [List.getElem_map, List.getElem_range, List.getElem?_eq_getElem hi', Option.getD_some]

theorem of_drop_eq_cons {α : Type} {x : α} {xs rest : List α} {n : Nat} (h : xs.drop n = x :: rest) :
    xs[n]? = some x ∧ xs.drop (n + 1) = rest := by
  rw [← List.tail_drop, ← List.head?_drop, h]
  exact ⟨rfl, rfl⟩

/-- A partial map that is defined where a test says so. -/
theorem filterMap_ite {α β : Type} (p : α → Bool) (f : α → β) (xs : List α) :
    (xs.filterMap fun x => if p x then some (f x) else none) = (xs.filter p).map f := by
  induction xs with
  | nil => rfl
  | cons x xs ih =>
    rw [List.filterMap_cons, List.filter_cons, ih]
    cases p x <;> rfl

/-- To leave out one result of a partial map is to leave out the member that it comes from. -/
theorem eraseIdx_filterMap {α β : Type} {f : α → Option β} {xs : List α} {k : Nat} {y : β}
    (h : (xs.filterMap f)[k]? = some y) :
    ∃ i x, xs[i]? = some x ∧ f x = some y ∧ (xs.filterMap f).eraseIdx k = (xs.eraseIdx i).filterMap f := by
  induction xs generalizing k with
  | nil => cases h
  | cons x xs ih =>
    cases hx : f x with
    | none =>
      rw [List.filterMap_cons_none hx] at h ⊢
      obtain ⟨i, z, hi, hz, herase⟩ := ih h
      exact ⟨i + 1, z, hi, hz, by rw [herase, List.eraseIdx_cons_succ, List.filterMap_cons_none hx]⟩
    | some z =>
      rw [List.filterMap_cons_some hx] at h ⊢
      cases k with
      | zero => exact ⟨0, x, rfl, hx.trans h, rfl⟩
      | succ k =>
        obtain ⟨i, w, hi, hw, herase⟩ := ih h
        refine ⟨i + 1, w, hi, hw, ?_⟩
        rw [List.eraseIdx_cons_succ, herase, List.eraseIdx_cons_succ, List.filterMap_cons_some hx]

/-- Where all members of a list are replaced by lists of one length, the results stand row by row. -/
theorem getElem?_flatMap_of_length {α β : Type} {f : α → List β} {xs : List α} {n : Nat}
    (h : ∀ x ∈ xs, (f x).length = n) (i : Nat) {j : Nat} (hj : j < n) :
    (xs.flatMap f)[i * n + j]? = xs[i]?.bind fun x => (f x)[j]? := by
  induction xs generalizing i with
  | nil => rfl
  | cons x xs ih =>
    obtain ⟨hx, hxs⟩ := List.forall_mem_cons.mp h
    rw [List.flatMap_cons]
    cases i with
    | zero =>
      rw [Nat.zero_mul, Nat.zero_add, List.getElem?_append_left (hx ▸ hj)]
      rfl
    | succ i =>
      have hrow : (i + 1) * n + j = (f x).length + (i * n + j) := by rw [hx, Nat.succ_mul]; omega
      rw [hrow, List.getElem?_append_right (Nat.le_add_right _ _), Nat.add_sub_cancel_left, ih hxs]
      rfl

theorem getElem?_zipIdx_eq_some {α : Type} {xs : List α} {i j : Nat} {x : α} :
    xs.zipIdx[i]? = some (x, j) ↔ xs[i]? = some x ∧ j = i := by
  rw [List.getElem?_zipIdx, Nat.zero_add]
  cases xs[i]? <;> simp [eq_comm]

/-- A prefix ends where the first member is that does not fit. -/
theorem takeWhile_append_of_stop {α : Type} {p : α → Bool} {xs ys : List α} (hxs : ∀ x ∈ xs, p x = true)
    (hys : ∀ y ∈ ys.head?, p y = false) : (xs ++ ys).takeWhile p = xs := by
  rw [List.takeWhile_append_of_pos hxs]
  cases ys with
  | nil => rw [List.takeWhile_nil, List.append_nil]
  | cons y ys => rw [List.takeWhile_cons_of_neg (Bool.eq_false_iff.mp (hys y rfl)), List.append_nil]

theorem dropWhile_append_of_stop {α : Type} {p : α → Bool} {xs ys : List α} (hxs : ∀ x ∈ xs, p x = true)
    (hys : ∀ y ∈ ys.head?, p y = false) : (xs ++ ys).dropWhile p = ys := by
  rw [List.dropWhile_append_of_pos hxs]
  cases ys with
  | nil => rfl
  | cons y ys => exact List.dropWhile_cons_of_neg (Bool.eq_false_iff.mp (hys y rfl))

theorem nodup_eraseDups {α : Type} [BEq α] [LawfulBEq α] (xs : List α) : xs.eraseDups.Nodup := by
  induction h : xs.length using Nat.strong_induction_on generalizing xs with
  | _ n ih =>
    cases xs with
    | nil => exact List.nodup_nil
    | cons x xs =>
      subst h
      rw [List.eraseDups_cons, List.nodup_cons, List.mem_eraseDups]
      refine ⟨by simp, ih _ (Nat.lt_succ_of_le (List.length_filter_le _ xs)) _ rfl⟩

theorem sublist_eraseDups {α : Type} [DecidableEq α] (xs : List α) : xs.eraseDups.Sublist xs := by
  induction h : xs.length using Nat.strong_induction_on generalizing xs with
  | _ n ih =>
    cases xs with
    | nil => exact List.Sublist.refl _
    | cons x xs =>
      subst h
      rw [List.eraseDups_cons]
      exact ((ih _ (Nat.lt_succ_of_le (List.length_filter_le _ xs)) _ rfl).trans List.filter_sublist).cons_cons x

/-- The first member that passes a test is also the first one where repetitions are left out. -/
theorem find?_eraseDups {α : Type} [BEq α] [LawfulBEq α] (p : α → Bool) (xs : List α) :
    xs.eraseDups.find? p = xs.find? p := by
  induction h : xs.length using Nat.strong_induction_on generalizing xs with
  | _ n ih =>
    cases xs with
    | nil => rfl
    | cons x xs =>
      subst h
      rw [List.eraseDups_cons]
      by_cases hx : p x = true
      · rw [List.find?_cons_of_pos hx, List.find?_cons_of_pos hx]
      · rw [List.find?_cons_of_neg hx, List.find?_cons_of_neg hx,
          ih _ (Nat.lt_succ_of_le (List.length_filter_le _ xs)) _ rfl, List.find?_filter]
        -- The members that are left out are equal to `x`, which does not pass.
        refine congrArg (List.find? · xs) (funext fun y => ?_)
        by_cases hy : y = x <;> simp [hy, hx]

/-- Without its repetitions a list is as long as its set of members is large. -/
theorem length_eraseDups {α : Type} [DecidableEq α] (xs : List α) : xs.eraseDups.length = xs.toFinset.card := by
  rw [← List.toFinset_card_of_nodup (nodup_eraseDups xs)]
  congr 1
  ext x
  rw [List.mem_toFinset, List.mem_toFinset, List.mem_eraseDups]

end Minterm
