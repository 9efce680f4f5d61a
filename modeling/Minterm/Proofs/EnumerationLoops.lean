import Minterm.Proofs.BinaryCounting

/-! Loops over an enumeration. A loop calls the enumeration again and again and hands each assignment to its body,
    until nothing is due any more, the body breaks the loop off or the body fails. It goes through the list of all
    assignments (`loops_start`). So the visits of all assignments are such loops, and so is the search for one that
    makes an expression true. -/

namespace Minterm

namespace Enumeration

/-- How a loop that holds `acc` ends. -/
inductive Loops {α : Type} (body : Bindings Bool → α → Except Fault (ForInStep α)) :
    Enumeration → α → Except Fault α → Prop
  | exhausted {e : Enumeration} {acc : α} (hnext : e.next.1 = none) : Loops body e acc (.ok acc)
  | failed {e : Enumeration} {acc : α} {bindings : Bindings Bool} {fault : Fault} (hnext : e.next.1 = some bindings)
    (hbody : body bindings acc = .error fault) : Loops body e acc (.error fault)
  | broken {e : Enumeration} {acc last : α} {bindings : Bindings Bool} (hnext : e.next.1 = some bindings)
    (hbody : body bindings acc = .ok (.done last)) : Loops body e acc (.ok last)
  | round {e : Enumeration} {acc more : α} {bindings : Bindings Bool} {result : Except Fault α}
    (hnext : e.next.1 = some bindings) (hbody : body bindings acc = .ok (.yield more))
    (hrest : Loops body e.next.2 more result) : Loops body e acc result

section Loops
variable {α : Type} {body : Bindings Bool → α → Except Fault (ForInStep α)} {e : Enumeration} {acc : α}
variable {result : Except Fault α}

theorem loops_of_none (hnext : e.next.1 = none) : Loops body e acc result ↔ .ok acc = result := by
  constructor
  · intro h
    cases h with
    | exhausted => rfl
    | failed hsome | broken hsome | round hsome => cases hnext.symm.trans hsome
  · rintro rfl
    exact .exhausted hnext

theorem loops_of_some {bindings : Bindings Bool} (hnext : e.next.1 = some bindings) :
    Loops body e acc result ↔
      match body bindings acc with
      | .error fault => .error fault = result
      | .ok (.done last) => .ok last = result
      | .ok (.yield more) => Loops body e.next.2 more result := by
  constructor
  · intro h
    cases h with
    | exhausted hnone => cases hnext.symm.trans hnone
    | failed hsome hbody | broken hsome hbody =>
      obtain rfl := Option.some.inj (hnext.symm.trans hsome)
      rw [hbody]
    | round hsome hbody hrest =>
      obtain rfl := Option.some.inj (hnext.symm.trans hsome)
      rwa [hbody]
  · intro h
    split at h
    · rename_i hbody
      exact h ▸ .failed hnext hbody
    · rename_i hbody
      exact h ▸ .broken hnext hbody
    · rename_i hbody
      exact .round hnext hbody h

/-- A loop that starts when number `k` is due goes through the assignments from that number on. -/
theorem loops_atNumber {vars : List String} {k : Nat} :
    Loops body (atNumber vars k) acc result ↔ forIn ((assignments vars).drop k) acc body = result := by
  have hnext : (atNumber vars k).next.1 = (assignments vars)[k]? := by
    rw [← item_eq_getElem?, item, after_start]
  induction hrest : (assignments vars).drop k generalizing k acc with
  | nil =>
    rw [← List.head?_drop, hrest] at hnext
    rw [loops_of_none hnext]
    rfl
  | cons bindings rest ih =>
    obtain ⟨hitem, htail⟩ := of_drop_eq_cons hrest
    have hlater : (atNumber vars k).next.2 = atNumber vars (k + 1) := by rw [next_atNumber]
    have hdue : (atNumber vars (k + 1)).next.1 = (assignments vars)[k + 1]? := by
      rw [← item_eq_getElem?, item, after_start]
    rw [loops_of_some (hnext.trans hitem), hlater, List.forIn_cons]
    cases body bindings acc with
    | error fault => rfl
    | ok next =>
      cases next with
      | done last => rfl
      | yield more => exact ih hdue htail

theorem loops_start {vars : List String} :
    Loops body (start vars) acc result ↔ forIn (assignments vars) acc body = result := by
  rw [show start vars = atNumber vars 0 from after_start vars 0]
  exact loops_atNumber

end Loops

/-! ### Visits as loops -/

theorem allM_eq_forIn {α : Type} (test : α → Except Fault Bool) (xs : List α) :
    xs.allM test = forIn xs true fun x _ => do
      let holds ← test x
      return if holds then .yield true else .done false := by
  induction xs with
  | nil => rfl
  | cons x xs ih =>
    rw [List.allM_cons, List.forIn_cons, ih]
    cases test x with
    | error fault => rfl
    | ok holds => cases holds <;> rfl

theorem foldlM_eq_forIn {α β : Type} (step : β → α → Except Fault β) (xs : List α) (acc : β) :
    xs.foldlM step acc = forIn xs acc fun x acc => do
      let acc ← step acc x
      return .yield acc := by
  induction xs generalizing acc with
  | nil => rfl
  | cons x xs ih =>
    rw [List.foldlM_cons, List.forIn_cons]
    cases step acc x with
    | error fault => rfl
    | ok acc => exact ih acc

/-- All assignments are tested by a loop that a failed test breaks off. -/
theorem everyAssignment_eq_iff_loops {test : Bindings Bool → Except Fault Bool} {vars : List String}
    {result : Except Fault Bool} :
    everyAssignment test [] vars = result ↔
      Loops (fun bindings _ => do
        let holds ← test bindings
        return if holds then .yield true else .done false) (start vars) true result := by
  rw [loops_start, everyAssignment_eq, allM_eq_forIn]

/-- A step for each assignment is taken by a loop that runs to the end. -/
theorem foldAssignments_eq_iff_loops {α : Type} {step : α → Bindings Bool → Except Fault α} {vars : List String} {acc : α}
    {result : Except Fault α} :
    foldAssignments step [] vars acc = result ↔
      Loops (fun bindings acc => do
        let acc ← step acc bindings
        return .yield acc) (start vars) acc result := by
  rw [loops_start, foldAssignments_eq, foldlM_eq_forIn]

end Enumeration

namespace Expr
open Enumeration (Loops loops_start start)

/-- To find that not every assignment makes the negation true is to search for one that makes the expression true. -/
theorem not_allM_not (e : Expr) (xs : List (Bindings Bool)) :
    (do let refuted ← xs.allM fun (bindings : Bindings Bool) => e.not.eval bindings.value?
        return !refuted) =
      forIn xs false fun (bindings : Bindings Bool) _ => do
        let holds ← e.eval bindings.value?
        return if holds then .done true else .yield false := by
  induction xs with
  | nil => rfl
  | cons bindings xs ih =>
    rw [List.allM_cons, List.forIn_cons, eval]
    cases e.eval bindings.value? with
    | error fault => rfl
    | ok holds =>
      cases holds with
      | true => rfl
      | false => exact ih

/-- An expression is found satisfiable by a loop that the first assignment which makes it true breaks off. -/
theorem isSatisfiable_eq_iff_loops {e : Expr} {result : Except Fault Bool} :
    e.isSatisfiable = result ↔
      Loops (fun bindings _ => do
        let holds ← e.eval bindings.value?
        return if holds then .done true else .yield false) (start e.vars) false result := by
  have hvars : e.not.vars = e.vars := congrArg List.eraseDups (names_not e)
  rw [loops_start, isSatisfiable, isTautology, everyAssignment_eq, hvars, not_allM_not]

end Expr
end Minterm
