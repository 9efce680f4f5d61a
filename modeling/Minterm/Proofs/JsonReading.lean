import Minterm.Json.Reader
import Minterm.Proofs.JsonSpelling

/-! Reading back a written JSON text. Wherever a value is due, the lexemes of a value complete it, if the
    reader may open as many arrays and objects as stand inside one another in it (`nesting`), and are
    refused otherwise. -/

namespace Minterm.Json
open ReadState (step complete)

mutual

/-- How many arrays and objects stand inside one another. -/
def nesting : Json → Nat
  | .array items => itemNesting items + 1
  | .object fields => fieldNesting fields + 1
  | _ => 0

def itemNesting : List Json → Nat
  | [] => 0
  | item :: items => max (nesting item) (itemNesting items)

def fieldNesting : List (String × Json) → Nat
  | [] => 0
  | (_, value) :: fields => max (nesting value) (fieldNesting fields)

end

theorem add_itemNesting_le {items : List Json} {k n : Nat} :
    k + itemNesting items ≤ n ↔ k ≤ n ∧ ∀ item ∈ items, k + item.nesting ≤ n := by
  induction items with
  | nil => simp [itemNesting]
  | cons item items ih => rw [itemNesting, ← Nat.add_max_add_left, Nat.max_le, ih, List.forall_mem_cons, and_left_comm]

theorem add_fieldNesting_le {fields : List (String × Json)} {k n : Nat} :
    k + fieldNesting fields ≤ n ↔ k ≤ n ∧ ∀ field ∈ fields, k + field.2.nesting ≤ n := by
  induction fields with
  | nil => simp [fieldNesting]
  | cons field fields ih => rw [fieldNesting, ← Nat.add_max_add_left, Nat.max_le, ih, List.forall_mem_cons, and_left_comm]

theorem add_nesting_array_le {items : List Json} {k n : Nat} :
    k + (array items).nesting ≤ n ↔ k < n ∧ ∀ item ∈ items, k + 1 + item.nesting ≤ n := by
  rw [nesting, Nat.add_comm (itemNesting items), ← Nat.add_assoc, add_itemNesting_le, Nat.succ_le_iff]

theorem add_nesting_object_le {fields : List (String × Json)} {k n : Nat} :
    k + (object fields).nesting ≤ n ↔ k < n ∧ ∀ field ∈ fields, k + 1 + field.2.nesting ≤ n := by
  rw [nesting, Nat.add_comm (fieldNesting fields), ← Nat.add_assoc, add_fieldNesting_le, Nat.succ_le_iff]

variable {limit : Nat}

/-- The lexemes of a value complete it wherever a value is due, unless they stand too deep. -/
def Completes (limit : Nat) (j : Json) : Prop :=
  ∀ outer, outer.length ≤ limit → j.spelling.foldlM (step limit) (.due outer) =
    if outer.length + j.nesting ≤ limit then some (complete j outer) else none

/-! ### Members of an array or object

What is read is a sequence of members, with commas between them and a closing mark behind the last one. The
state `before` a member and the state `after` it depend on the members that are read already, the last in
front. -/

section Members
variable {α : Type} {ls : α → List Lexeme} {fits : α → Prop} [DecidablePred fits] {xs : List α}
variable (before after : List α → ReadState)

theorem foldlM_separated (hcomma : ∀ x done, step limit (after (x :: done)) (.mark ',') = some (before (x :: done)))
    (hmember : ∀ x ∈ xs, ∀ done,
      (ls x).foldlM (step limit) (before done) = if fits x then some (after (x :: done)) else none)
    (hne : xs ≠ []) (done : List α) :
    ([.mark ','].intercalate (xs.map ls)).foldlM (step limit) (before done) =
      if ∀ x ∈ xs, fits x then some (after (xs.reverse ++ done)) else none := by
  induction xs generalizing done with
  | nil => exact absurd rfl hne
  | cons x xs ih =>
    obtain ⟨hx, hxs⟩ := List.forall_mem_cons.mp hmember
    cases xs with
    | nil => simpa using hx done
    | cons y ys =>
      rw [List.map_cons, List.map_cons, List.intercalate_cons_cons, List.foldlM_append, List.foldlM_append, hx]
      by_cases hfits : fits x
      · have hrest := ih hxs (List.cons_ne_nil y ys) (x :: done)
        rw [List.map_cons] at hrest
        simp [hfits, hcomma, hrest]
      · -- the run has failed, whatever follows
        simp [hfits]

theorem foldlM_members (finish : List α → ReadState) (closing : Char)
    (hempty : step limit (before []) (.mark closing) = some (finish []))
    (hclosing : ∀ x done, step limit (after (x :: done)) (.mark closing) = some (finish (x :: done).reverse))
    (hcomma : ∀ x done, step limit (after (x :: done)) (.mark ',') = some (before (x :: done)))
    (hmember : ∀ x ∈ xs, ∀ done,
      (ls x).foldlM (step limit) (before done) = if fits x then some (after (x :: done)) else none) :
    ([.mark ','].intercalate (xs.map ls) ++ [Lexeme.mark closing]).foldlM (step limit) (before []) =
      if ∀ x ∈ xs, fits x then some (finish xs) else none := by
  rw [List.foldlM_append]
  by_cases hne : xs = []
  · subst hne
    simp [hempty]
  · rw [foldlM_separated before after hcomma hmember hne]
    split
    · obtain ⟨x, done, hreverse⟩ := List.exists_cons_of_ne_nil (List.reverse_ne_nil_iff.mpr hne)
      have hlast := hclosing x done
      rw [← hreverse, List.reverse_reverse] at hlast
      simp [hlast]
    · rfl

end Members

/-! ### Arrays and objects -/

/-- Where a further item may stand in an array that already holds the given ones, the last in front. -/
def itemDue (outer : List Frame) : List Json → ReadState
  | [] => .arrayOpen outer
  | items => .due (.array items :: outer)

def fieldDue (outer : List Frame) : List (String × Json) → ReadState
  | [] => .objectOpen outer
  | fields => .nameDue fields outer

/-- The lexemes of a value do not start with a closing bracket; so an opened array takes them for its first item. -/
theorem foldlM_arrayOpen (j : Json) (outer : List Frame) :
    j.spelling.foldlM (step limit) (.arrayOpen outer) = j.spelling.foldlM (step limit) (.due (.array [] :: outer)) := by
  cases j <;> rfl

theorem Completes.item {j : Json} (h : Completes limit j) {outer : List Frame} (hroom : outer.length < limit)
    (done : List Json) :
    j.spelling.foldlM (step limit) (itemDue outer done) =
      if outer.length + 1 + j.nesting ≤ limit then some (.item (j :: done) outer) else none := by
  cases done with
  | nil => exact (foldlM_arrayOpen j outer).trans (h _ hroom)
  | cons item items => exact h _ hroom

theorem Completes.field {j : Json} (h : Completes limit j) (name : String) {outer : List Frame}
    (hroom : outer.length < limit) (done : List (String × Json)) :
    (.atom (.string name) :: .mark ':' :: j.spelling).foldlM (step limit) (fieldDue outer done) =
      if outer.length + 1 + j.nesting ≤ limit then some (.field ((name, j) :: done) outer) else none := by
  cases done with
  | nil => exact h _ hroom
  | cons field fields => exact h _ hroom

/-- An array or object is opened if the limit allows a further one. -/
theorem foldlM_opened {opening : Char} {start : ReadState} {ls : List Lexeme} {outer : List Frame}
    (h : ReadState.beginValue limit outer (.mark opening) = if outer.length < limit then some start else none) :
    (.mark opening :: ls).foldlM (step limit) (.due outer) =
      if outer.length < limit then ls.foldlM (step limit) start else none := by
  rw [List.foldlM_cons, show step limit (.due outer) (.mark opening) = _ from h]
  split <;> rfl

theorem completes_array {items : List Json} (h : ∀ item ∈ items, Completes limit item) :
    Completes limit (.array items) := by
  intro outer _
  rw [spelling, List.cons_append, foldlM_opened rfl, itemSpellings_eq]
  simp only [add_nesting_array_le, ite_and]
  by_cases hroom : outer.length < limit
  · rw [if_pos hroom, if_pos hroom]
    exact foldlM_members (itemDue outer) (.item · outer) (fun items => complete (.array items) outer) ']'
      rfl (fun _ _ => rfl) (fun _ _ => rfl) fun item hitem => (h item hitem).item hroom
  · rw [if_neg hroom, if_neg hroom]

theorem completes_object {fields : List (String × Json)} (h : ∀ field ∈ fields, Completes limit field.2) :
    Completes limit (.object fields) := by
  intro outer _
  rw [spelling, List.cons_append, foldlM_opened rfl, fieldSpellings_eq]
  simp only [add_nesting_object_le, ite_and]
  by_cases hroom : outer.length < limit
  · rw [if_pos hroom, if_pos hroom]
    exact foldlM_members (fieldDue outer) (.field · outer) (fun fields => complete (.object fields) outer) '}'
      rfl (fun _ _ => rfl) (fun _ _ => rfl) fun field hfield => (h field hfield).field field.1 hroom
  · rw [if_neg hroom, if_neg hroom]

theorem completes {j : Json} (h : Numeric j) : Completes limit j := by
  induction h with
  | array _ ih => exact completes_array ih
  | object _ ih => exact completes_object ih
  | _ =>
    -- an atom opens nothing
    exact fun _ hroom => (if_pos hroom).symm

/-- The text of a value is read as this value, if it is not nested too deeply. -/
theorem read_compact (limit : Nat) {j : Json} (h : Numeric j) :
    read limit j.compact = if j.nesting ≤ limit then some j else none := by
  have hread := completes h [] (Nat.zero_le limit)
  rw [List.length_nil, Nat.zero_add] at hread
  rw [read, lexemes_compact h, Option.bind_eq_bind, Option.bind_some, hread]
  split <;> rfl

end Minterm.Json
