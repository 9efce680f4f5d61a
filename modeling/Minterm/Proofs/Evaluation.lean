import Minterm.Expr.Eval
import Minterm.Proofs.Lists

/-! What evaluation computes. Under a total assignment every expression has a value, `denote`; under a
    partial one it has a value if and only if all its names are bound, and the value is then the one
    that the bound names determine. If some are not, evaluation fails at the first of them. -/

namespace Minterm.Expr

/-! ### Total assignments -/

/-- The value under a total assignment. -/
def denote (values : String → Bool) : Expr → Bool
  | .lit b => b
  | .var name => values name
  | .not x => !x.denote values
  | .and a b => a.denote values && b.denote values
  | .or a b => a.denote values || b.denote values

variable {values : String → Bool} {value? : String → Option Bool}

theorem denote_congr {e : Expr} {values other : String → Bool}
    (h : ∀ name ∈ e.names, values name = other name) : e.denote values = e.denote other := by
  induction e with
  | lit b => rfl
  | var name => exact h name (List.mem_singleton_self _)
  | not x ih => simp only [denote, ih h]
  | and a b iha ihb | or a b iha ihb =>
    rw [denote, denote, iha fun name hn => h name (by simp [hn]), ihb fun name hn => h name (by simp [hn])]

/-! ### Chains -/

theorem denote_factors (e : Expr) : e.denote values = e.factors.all (·.denote values) := by
  induction e with
  | and a b iha ihb => rw [factors_and, List.all_append, ← iha, ← ihb, denote]
  | _ => simp [factors, factorsOnto]

theorem denote_terms (e : Expr) : e.denote values = e.terms.any (·.denote values) := by
  induction e with
  | or a b iha ihb => rw [terms_or, List.any_append, ← iha, ← ihb, denote]
  | _ => simp [terms, termsOnto]

theorem denote_andAll (es : List Expr) : (andAll es).denote values = es.all (·.denote values) := by
  cases es with
  | nil => rfl
  | cons e es =>
    rw [List.all_cons, andAll]
    induction es generalizing e with
    | nil => exact (Bool.and_true _).symm
    | cons f fs ih => rw [List.foldl_cons, ih, denote, List.all_cons, Bool.and_assoc]

theorem denote_orAll (es : List Expr) : (orAll es).denote values = es.any (·.denote values) := by
  cases es with
  | nil => rfl
  | cons e es =>
    rw [List.any_cons, orAll]
    induction es generalizing e with
    | nil => exact (Bool.or_false _).symm
    | cons f fs ih => rw [List.foldl_cons, ih, denote, List.any_cons, Bool.or_assoc]

/-! ### Partial assignments -/

/-- If all names are bound, evaluation gives the value that the bindings determine. -/
theorem eval_of_bound {e : Expr} (h : ∀ name ∈ e.names, (value? name).isSome) :
    e.eval value? = .ok (e.denote fun name => (value? name).getD false) := by
  induction e with
  | lit b => rfl
  | var name =>
    obtain ⟨b, hb⟩ := Option.isSome_iff_exists.mp (h name (List.mem_singleton_self _))
    simp only [eval, denote, hb, Option.getD_some]
  | not x ih =>
    rw [eval, ih h]
    rfl
  | and a b iha ihb | or a b iha ihb =>
    rw [eval, iha fun name hn => h name (by simp [hn]), ihb fun name hn => h name (by simp [hn])]
    rfl

/-- Evaluation succeeds only if all names are bound. -/
theorem bound_of_eval {e : Expr} {b : Bool} (h : e.eval value? = .ok b) :
    ∀ name ∈ e.names, (value? name).isSome := by
  induction e generalizing b with
  | lit c => simp
  | var name =>
    intro other hother
    obtain rfl := List.mem_singleton.mp hother
    cases hv : value? other with
    | none => simp [eval, hv] at h
    | some c => rfl
  | not x ih =>
    cases hx : x.eval value? with
    | error fault => simp [eval, hx, bind, Except.bind] at h
    | ok c => exact ih hx
  | and x y ihx ihy | or x y ihx ihy =>
    cases hx : x.eval value? with
    | error fault => simp [eval, hx, bind, Except.bind] at h
    | ok c =>
      cases hy : y.eval value? with
      | error fault => simp [eval, hx, hy, bind, Except.bind] at h
      | ok d =>
        intro name hn
        rcases List.mem_append.mp (by simpa using hn) with hn | hn
        · exact ihx hx name hn
        · exact ihy hy name hn

theorem eval_eq_ok_iff {e : Expr} {b : Bool} :
    e.eval value? = .ok b ↔
      (∀ name ∈ e.names, (value? name).isSome) ∧ e.denote (fun name => (value? name).getD false) = b := by
  constructor
  · intro h
    have hbound := bound_of_eval h
    rw [eval_of_bound hbound] at h
    exact ⟨hbound, Except.ok.inj h⟩
  · rintro ⟨hbound, rfl⟩
    exact eval_of_bound hbound

/-- The first name of a list without a binding. -/
def firstUnbound? (value? : String → Option Bool) (names : List String) : Option String :=
  names.find? fun name => (value? name).isNone

theorem bound_of_firstUnbound?_eq_none {names : List String} (h : firstUnbound? value? names = none) :
    ∀ name ∈ names, (value? name).isSome := by
  intro name hname
  have hnone := List.find?_eq_none.mp h name hname
  rwa [Bool.not_eq_true, Option.isNone_eq_false_iff] at hnone

/-- If some name is not bound, the fault is that of the first one. -/
theorem eval_of_unbound {e : Expr} {name : String} (h : firstUnbound? value? e.names = some name) :
    e.eval value? = .error (.unbound name) := by
  induction e with
  | lit b => cases h
  | var other =>
    rw [firstUnbound?, names_var, List.find?_singleton, Option.ite_none_right_eq_some, Option.some.injEq] at h
    obtain ⟨hnone, rfl⟩ := h
    rw [eval, Option.isNone_iff_eq_none.mp hnone]
  | not x ih =>
    rw [eval, ih h]
    rfl
  | and a b iha ihb | or a b iha ihb =>
    simp only [firstUnbound?, names_and, names_or, List.find?_append, Option.or_eq_some_iff] at h
    rcases h with ha | ⟨ha, hb⟩
    · rw [eval, iha ha]
      rfl
    · rw [eval, eval_of_bound (bound_of_firstUnbound?_eq_none ha), ihb hb]
      rfl

/-- If the names of a list are bound and no others, the fault is that of the first name outside the list. -/
theorem eval_of_outside {e : Expr} {vars : List String} {name : String}
    (hbound : ∀ other, (value? other).isSome ↔ other ∈ vars) (hfirst : e.names.find? (· ∉ vars) = some name) :
    e.eval value? = .error (.unbound name) := by
  refine eval_of_unbound (Eq.trans (congrArg (List.find? · e.names) (funext fun other => ?_)) hfirst)
  rw [Bool.eq_iff_iff, decide_eq_true_iff, ← hbound, Option.isNone_iff_eq_none, Option.not_isSome_iff_eq_none]

/-- There is a value, or a name without a binding. -/
theorem eval_cases (e : Expr) (value? : String → Option Bool) :
    (∃ b, e.eval value? = .ok b) ∨ ∃ name, e.eval value? = .error (.unbound name) := by
  cases h : firstUnbound? value? e.names with
  | some name => exact .inr ⟨name, eval_of_unbound h⟩
  | none => exact .inl ⟨_, eval_of_bound (bound_of_firstUnbound?_eq_none h)⟩

/-- Under a total assignment there is always a value. -/
theorem eval_total (e : Expr) (values : String → Bool) : e.eval (fun name => some (values name)) = .ok (e.denote values) :=
  eval_of_bound fun _ _ => rfl

/-! ### Which name is missed -/

theorem firstUnbound?_vars (e : Expr) (value? : String → Option Bool) :
    firstUnbound? value? e.vars = firstUnbound? value? e.names :=
  find?_eraseDups _ e.names

/-- Trees whose leaves carry the same names in the same order, and which have the same value under every total
    assignment, evaluate alike under every partial one: in the faults, too. -/
theorem eval_congr_names {a b : Expr} (hnames : a.names = b.names)
    (hvalue : ∀ values, a.denote values = b.denote values) : a.eval value? = b.eval value? := by
  cases h : firstUnbound? value? b.names with
  | some name => rw [eval_of_unbound h, eval_of_unbound (hnames ▸ h)]
  | none =>
    have hbound := bound_of_firstUnbound?_eq_none h
    rw [eval_of_bound hbound, eval_of_bound (hnames ▸ hbound), hvalue]

/-- Assignments that bind the names of an expression alike give it the same value, or the same fault. -/
theorem eval_of_agree {e : Expr} {other? : String → Option Bool} (h : ∀ name ∈ e.names, other? name = value? name) :
    e.eval other? = e.eval value? := by
  induction e with
  | lit b => rfl
  | var name => rw [eval, eval, h name (List.mem_singleton_self _)]
  | not x ih => rw [eval, eval, ih h]
  | and a b iha ihb | or a b iha ihb =>
    rw [eval, eval, iha fun name hn => h name (by simp [hn]), ihb fun name hn => h name (by simp [hn])]

/-- The only fault is that of the first variable without a binding. -/
theorem eval_eq_error_iff {e : Expr} {fault : Fault} :
    e.eval value? = .error fault ↔ ∃ name, firstUnbound? value? e.vars = some name ∧ fault = .unbound name := by
  rw [firstUnbound?_vars]
  cases h : firstUnbound? value? e.names with
  | some name =>
    rw [eval_of_unbound h]
    simp [eq_comm]
  | none =>
    rw [eval_of_bound (bound_of_firstUnbound?_eq_none h)]
    simp

/-- Evaluation succeeds if and only if all variables are bound, and its result hangs on their bindings alone.
    Otherwise the fault names the first variable that is not bound, in the order in which they are first met. -/
theorem evaluation_fails_at_the_first_unbound (e : Expr) (value? : String → Option Bool) :
    ((∃ b, e.eval value? = .ok b) ↔ ∀ name ∈ e.vars, (value? name).isSome) ∧
    (∀ other? : String → Option Bool, (∀ name ∈ e.vars, other? name = value? name) → e.eval other? = e.eval value?) ∧
    ∀ fault, e.eval value? = .error fault ↔
      ∃ bound name rest, e.vars = bound ++ name :: rest ∧ (∀ other ∈ bound, (value? other).isSome) ∧
        value? name = none ∧ fault = .unbound name := by
  refine ⟨?_, fun other? hagree => eval_of_agree fun name hname => hagree name (mem_vars.mpr hname), fun fault => ?_⟩
  · simp only [eval_eq_ok_iff, mem_vars, exists_and_left, exists_eq', and_true]
  · rw [eval_eq_error_iff]
    simp only [firstUnbound?, List.find?_eq_some_iff_append, Option.isNone_iff_eq_none, Bool.not_eq_true',
      Option.isNone_eq_false_iff]
    constructor
    · rintro ⟨name, ⟨hnone, bound, rest, hvars, hbound⟩, rfl⟩
      exact ⟨bound, name, rest, hvars, hbound, hnone, rfl⟩
    · rintro ⟨bound, name, rest, hvars, hbound, hnone, rfl⟩
      exact ⟨name, ⟨hnone, bound, rest, hvars, hbound⟩, rfl⟩

/-- Of three variables, the first of which is read twice, only the middle one is bound, and another assignment
    differs on a name that is not read. -/
theorem evaluation_fails_at_the_first_unbound_repeated :
    let e : Expr := .or (.and (.var "y") (.not (.var "x"))) (.or (.var "y") (.var "z"))
    let value? : String → Option Bool := fun name => if name = "y" then some true else none
    let other? : String → Option Bool := fun name => if name = "y" ∨ name = "w" then some true else none
    (∀ name ∈ e.vars, other? name = value? name) ∧ e.eval other? = e.eval value? ∧
      e.eval other? = .error (.unbound "x") := by
  intro e value? other?
  obtain ⟨-, hsame, hfault⟩ := evaluation_fails_at_the_first_unbound e value?
  have hagree : ∀ name ∈ e.vars, other? name = value? name := by decide
  refine ⟨hagree, hsame other? hagree, (hsame other? hagree).trans ((hfault _).mpr ?_)⟩
  exact ⟨["y"], "x", ["z"], by decide, by decide, by decide, rfl⟩

end Minterm.Expr
