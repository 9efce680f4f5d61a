/-! Machines that read a list member by member. A step leads from one state to another and may put something
    out; a machine that cannot go on refuses the list. -/

namespace Minterm.Dot

variable {σ α β : Type}

/-- Reads a list from a state on: the state behind it, and what has been put out on the way. -/
def run? (step? : σ → α → Option (σ × List β)) : σ → List α → Option (σ × List β)
  | state, [] => some (state, [])
  | state, x :: xs =>
    match step? state x with
    | some (next, out) => (run? step? next xs).map fun (last, more) => (last, out ++ more)
    | none => none

/-- Reads a whole list, behind which the machine has to be where it started. -/
def readAll? [DecidableEq σ] (step? : σ → α → Option (σ × List β)) (start : σ) (xs : List α) : Option (List β) :=
  match run? step? start xs with
  | some (last, out) => if last = start then some out else none
  | none => none

variable {step? : σ → α → Option (σ × List β)} {first next last : σ} {xs ys : List α} {x : α} {out more : List β}

theorem run?_cons (hstep : step? first x = some (next, out)) :
    run? step? first (x :: xs) = (run? step? next xs).map fun (last, more) => (last, out ++ more) := by
  rw [run?, hstep]

/-- A step that puts nothing out. -/
theorem run?_cons_silent (hstep : step? first x = some (next, [])) :
    run? step? first (x :: xs) = run? step? next xs := by
  rw [run?_cons hstep]
  exact Option.map_id'

/-- A run over one list, and from where it ends over another. -/
theorem run?_append (hxs : run? step? first xs = some (next, out)) (hys : run? step? next ys = some (last, more)) :
    run? step? first (xs ++ ys) = some (last, out ++ more) := by
  induction xs generalizing first out with
  | nil =>
    cases hxs
    exact hys
  | cons x xs ih =>
    rw [run?] at hxs
    cases hstep : step? first x with
    | none => rw [hstep] at hxs; cases hxs
    | some result =>
      obtain ⟨state, found⟩ := result
      rw [hstep] at hxs
      obtain ⟨⟨last', later⟩, hrun, heq⟩ := Option.map_eq_some_iff.mp hxs
      cases heq
      rw [List.cons_append, run?_cons hstep, ih hrun, Option.map_some, List.append_assoc]

theorem readAll?_of_run? [DecidableEq σ] (h : run? step? first xs = some (first, out)) :
    readAll? step? first xs = some out := by
  rw [readAll?, h]
  exact if_pos rfl

end Minterm.Dot
