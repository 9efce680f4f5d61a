import Mathlib.Data.Fintype.Pi
import Mathlib.Data.Fintype.Sets
import Mathlib.Data.List.Perm.Subperm
import Minterm.Proofs.ModelCount

/-! The number of satisfying assignments. A model of an expression gives a value to each of its variables and to
    nothing else. The visit of a list of names counts every model once for each way to bind the names that do
    not decide it: those that the expression does not have, and those that come again later in the list. Each
    of them doubles the count (`countBindings_append`). Over its own variables, then, an expression counts its
    models once each: it is a tautology if all choices are models, and satisfiable if any is. -/

namespace Minterm

/-! ### Choices -/

/-- A choice of a value for each name of a list. -/
abbrev Choice (names : List String) : Type := {name // name ∈ names} → Bool

namespace Choice
variable {names : List String}

/-- The choice as a partial assignment that binds the names of the list and no others. -/
def value? (choice : Choice names) (name : String) : Option Bool :=
  if h : name ∈ names then some (choice ⟨name, h⟩) else none

/-- The chosen values; a name outside the list is false. -/
def total (choice : Choice names) (name : String) : Bool := (choice.value? name).getD false

/-- The values of a total assignment on the names of the list. -/
def restrict (names : List String) (values : String → Bool) : Choice names := fun name => values name

theorem isSome_value? (choice : Choice names) {name : String} : (choice.value? name).isSome ↔ name ∈ names := by
  unfold value?
  split <;> simp [*]

theorem value?_of_mem (choice : Choice names) {name : String} (h : name ∈ names) :
    choice.value? name = some (choice ⟨name, h⟩) :=
  dif_pos h

theorem total_restrict {values : String → Bool} {name : String} (h : name ∈ names) :
    (restrict names values).total name = values name := by
  rw [total, value?_of_mem _ h, Option.getD_some, restrict]

/-! ### All choices -/

/-- The choice that a row of bits stands for. -/
def ofRow (names : List String) (row : List Bool) : Choice names :=
  restrict names fun name => (firstBit? names row name).getD false

theorem total_ofRow {row : List Bool} (h : row.length = names.length) :
    (ofRow names row).total = fun name => (firstBit? names row name).getD false := by
  funext name
  by_cases hname : name ∈ names
  · exact total_restrict hname
  · have hvalue : (ofRow names row).value? name = none := dif_neg hname
    have hbit : firstBit? names row name = none :=
      Option.not_isSome_iff_eq_none.mp fun hsome => hname ((isSome_firstBit? h name).mp hsome)
    rw [total, hvalue, hbit]

theorem exists_row (choice : Choice names) : ∃ row ∈ bitRows names.length, ofRow names row = choice := by
  refine ⟨names.map choice.total, mem_bitRows.mpr (List.length_map _), ?_⟩
  funext ⟨name, h⟩
  show (firstBit? names (names.map choice.total) name).getD false = choice ⟨name, h⟩
  rw [firstBit?_map _ h, Option.getD_some, total, choice.value?_of_mem h, Option.getD_some]

theorem nodup_rows (h : names.Nodup) : ((bitRows names.length).map (ofRow names)).Nodup := by
  refine (nodup_bitRows _).map_on fun row hrow other hother heq => ?_
  have hrow := mem_bitRows.mp hrow
  have hother := mem_bitRows.mp hother
  rw [← map_firstBit? h hrow, ← map_firstBit? h hother, ← total_ofRow hrow, ← total_ofRow hother, heq]

/-- Different names are bound in as many ways as there are choices for them. -/
theorem card_filter (h : names.Nodup) (test : (String → Bool) → Bool) :
    (Finset.univ.filter fun choice : Choice names => test choice.total = true).card =
      countBindings test (fun _ => false) names := by
  have huniv : Finset.univ = ((bitRows names.length).map (ofRow names)).toFinset := by
    refine (Finset.eq_univ_iff_forall.mpr fun choice => ?_).symm
    obtain ⟨row, hrow, hchoice⟩ := choice.exists_row
    exact List.mem_toFinset.mpr (List.mem_map.mpr ⟨row, hrow, hchoice⟩)
  calc (Finset.univ.filter fun choice : Choice names => test choice.total = true).card
    _ = ((bitRows names.length).map (ofRow names)).countP fun choice => test choice.total := by
      rw [huniv, ← List.toFinset_filter, List.toFinset_card_of_nodup ((nodup_rows h).filter _),
        List.countP_eq_length_filter]
    _ = (bitRows names.length).countP fun row => test fun name => (firstBit? names row name).getD false := by
      rw [List.countP_map]
      exact List.countP_congr fun row hrow => by rw [Function.comp_apply, total_ofRow (mem_bitRows.mp hrow)]
    _ = countBindings test (fun _ => false) names.reverse := countP_firstBit? test _ names
    _ = countBindings test (fun _ => false) names := countBindings_perm _ _ names.reverse_perm

end Choice

/-! ### Names that decide nothing -/

section Idle
variable {test : (String → Bool) → Bool} {names : List String}

/-- A test reads the names of a list and no others. -/
def Reads (test : (String → Bool) → Bool) (names : List String) : Prop :=
  ∀ values other : String → Bool, (∀ name ∈ names, values name = other name) → test values = test other

/-- What the names are bound to in the beginning is of no account if all that the test reads is bound anew. -/
theorem countBindings_congr {read : List String} (htest : Reads test read) {values other : String → Bool}
    (h : ∀ name ∈ read, name ∈ names ∨ values name = other name) :
    countBindings test values names = countBindings test other names := by
  induction names generalizing values other with
  | nil => rw [countBindings, countBindings, htest values other fun name hn => (h name hn).resolve_left List.not_mem_nil]
  | cons name names ih =>
    have hset (b : Bool) : countBindings test (Function.update values name b) names =
        countBindings test (Function.update other name b) names := by
      refine ih fun x hx => ?_
      by_cases hname : x = name
      · right
        rw [hname, Function.update_self, Function.update_self]
      · rw [Function.update_of_ne hname, Function.update_of_ne hname]
        exact (h x hx).imp_left fun hmem => (List.mem_cons.mp hmem).resolve_left hname
    rw [countBindings, countBindings, hset, hset]

/-- A name that is not read, or that is bound again, doubles the count. -/
theorem countBindings_append (htest : Reads test names) (idle : List String) (values : String → Bool) :
    countBindings test values (idle ++ names) = 2 ^ idle.length * countBindings test values names := by
  induction idle generalizing values with
  | nil => rw [List.nil_append, List.length_nil, Nat.pow_zero, Nat.one_mul]
  | cons name idle ih =>
    have hset (b : Bool) : countBindings test (Function.update values name b) names = countBindings test values names :=
      countBindings_congr htest fun _ hx => .inl hx
    rw [List.cons_append, countBindings, ih, ih, hset, hset, List.length_cons, Nat.pow_succ, Nat.mul_assoc, Nat.two_mul,
      Nat.mul_add]

/-- Every way to bind the names passes the test or fails it. -/
theorem countBindings_add_not (test : (String → Bool) → Bool) (values : String → Bool) (names : List String) :
    countBindings test values names + countBindings (fun values => !test values) values names = 2 ^ names.length := by
  induction names generalizing values with
  | nil =>
    show (test values).toNat + (!test values).toNat = 1
    cases test values <;> rfl
  | cons name names ih =>
    rw [countBindings, countBindings, Nat.add_add_add_comm, ih, ih, List.length_cons, Nat.pow_succ, Nat.mul_two]

end Idle

namespace Expr
variable {e : Expr} {vars : List String}

/-! ### Models -/

/-- The assignments of its own variables under which an expression is true. -/
def models (e : Expr) : Finset (Choice e.vars) := Finset.univ.filter fun choice => e.eval choice.value? = .ok true

theorem eval_choice (e : Expr) (choice : Choice e.vars) : e.eval choice.value? = .ok (e.denote choice.total) :=
  eval_of_bound fun _ hname => choice.isSome_value?.mpr (mem_vars.mpr hname)

theorem reads_denote (e : Expr) : Reads e.denote e.vars :=
  fun _ _ h => denote_congr fun name hname => h name (mem_vars.mpr hname)

theorem mem_models {choice : Choice e.vars} : choice ∈ e.models ↔ e.denote choice.total = true := by
  rw [models, Finset.mem_filter, and_iff_right (Finset.mem_univ _), eval_choice, Except.ok.injEq]

theorem nodup_vars (e : Expr) : e.vars.Nodup := nodup_eraseDups _

theorem card_models (e : Expr) : e.models.card = countBindings e.denote (fun _ => false) e.vars := by
  refine Eq.trans (congrArg Finset.card ?_) (Choice.card_filter e.nodup_vars e.denote)
  ext choice
  rw [mem_models, Finset.mem_filter, and_iff_right (Finset.mem_univ _)]

theorem models_eq_empty : e.models = ∅ ↔ ∀ values, e.denote values = false := by
  rw [Finset.eq_empty_iff_forall_notMem]
  constructor
  · intro h values
    have hsame : e.denote (Choice.restrict e.vars values).total = e.denote values :=
      e.reads_denote _ _ fun _ hname => Choice.total_restrict hname
    have hnone := h (Choice.restrict e.vars values)
    rwa [mem_models, hsame, Bool.not_eq_true] at hnone
  · intro h choice hmem
    rw [mem_models, h] at hmem
    cases hmem

/-! ### Counts -/

theorem satCount_eq_models (h : ∀ name ∈ e.vars, name ∈ vars) :
    e.vars.length ≤ vars.length ∧ e.satCount vars = .ok (2 ^ (vars.length - e.vars.length) * e.models.card) := by
  have hsub : e.vars.Subperm vars := List.subperm_of_subset e.nodup_vars h
  obtain ⟨idle, hperm⟩ : ∃ idle, vars.Perm (idle ++ e.vars) := by
    obtain ⟨listed, hlisted, hsublist⟩ := hsub
    obtain ⟨idle, hidle⟩ := hsublist.exists_perm_append
    exact ⟨idle, hidle.trans ((hlisted.append_right idle).trans List.perm_append_comm)⟩
  have hlength : vars.length = idle.length + e.vars.length := hperm.length_eq.trans List.length_append
  refine ⟨hsub.length_le, ?_⟩
  rw [satCount_eq fun name hname => h name (mem_vars.mpr hname), countBindings_perm _ _ hperm,
    countBindings_append e.reads_denote, card_models, hlength, Nat.add_sub_cancel]

/-- The models of a negation are the other choices. -/
theorem card_models_add_not (e : Expr) : e.models.card + (Expr.not e).models.card = 2 ^ e.vars.length := by
  rw [card_models, card_models]
  exact countBindings_add_not e.denote _ e.vars

theorem satCount_add_not (h : ∀ name ∈ e.vars, name ∈ vars) :
    ∃ count refuting, e.satCount vars = .ok count ∧ (Expr.not e).satCount vars = .ok refuting ∧
      count + refuting = 2 ^ vars.length := by
  have hnames : ∀ name ∈ e.names, name ∈ vars := fun name hname => h name (mem_vars.mpr hname)
  exact ⟨_, _, satCount_eq hnames, satCount_eq (e := .not e) hnames, countBindings_add_not e.denote _ vars⟩

/-! ### Decisions -/

theorem isTautology_eq_ok (e : Expr) :
    ∃ answer, e.isTautology = .ok answer ∧ (answer = true ↔ ∀ values, e.denote values = true) :=
  everyAssignment_eq_ok e.vars e.denote
    (fun _ hmem => eval_of_mem_assignments hmem fun _ hname => mem_vars.mpr hname) e.reads_denote

theorem tautology_iff_card : (∀ values, e.denote values = true) ↔ e.models.card = 2 ^ e.vars.length := by
  have hsum := e.card_models_add_not
  calc (∀ values, e.denote values = true)
    _ ↔ ∀ values, (Expr.not e).denote values = false := by simp only [denote, Bool.not_eq_false']
    _ ↔ (Expr.not e).models.card = 0 := by rw [Finset.card_eq_zero, models_eq_empty]
    _ ↔ e.models.card = 2 ^ e.vars.length := by omega

theorem isSatisfiable_eq_ok (e : Expr) :
    ∃ answer, e.isSatisfiable = .ok answer ∧ (answer = true ↔ e.models.card ≠ 0) := by
  obtain ⟨refuted, hrefuted, hiff⟩ := isTautology_eq_ok (.not e)
  have hsum := e.card_models_add_not
  refine ⟨!refuted, by rw [isSatisfiable, hrefuted]; rfl, ?_⟩
  rw [Bool.not_eq_true', ← Bool.not_eq_true, hiff, tautology_iff_card]
  show (Expr.not e).models.card ≠ 2 ^ e.vars.length ↔ _
  omega

/-- Over any list of names that has the variables of an expression, the count is the number of its models, doubled
    for each place of the list beyond these variables; the counts of an expression and of its negation make up
    all assignments. Tautologies are the expressions that count all assignments of their own variables, and
    satisfiable are those that count any. No call fails. -/
theorem model_count_is_exact {e : Expr} {vars : List String} (h : ∀ name ∈ e.vars, name ∈ vars) :
    (e.vars.Nodup ∧ e.vars.length ≤ vars.length ∧
      e.satCount vars = .ok (2 ^ (vars.length - e.vars.length) * e.models.card)) ∧
    (∃ count refuting, e.satCount vars = .ok count ∧ (Expr.not e).satCount vars = .ok refuting ∧
      count + refuting = 2 ^ vars.length) ∧
    ∃ count valid satisfiable, e.satCount e.vars = .ok count ∧ e.isTautology = .ok valid ∧
      e.isSatisfiable = .ok satisfiable ∧ (valid = true ↔ count = 2 ^ e.vars.length) ∧ (satisfiable = true ↔ count ≠ 0) := by
  obtain ⟨valid, hvalid, hvalid_iff⟩ := e.isTautology_eq_ok
  obtain ⟨satisfiable, hsatisfiable, hsatisfiable_iff⟩ := e.isSatisfiable_eq_ok
  have hown : e.satCount e.vars = .ok e.models.card := by
    rw [(satCount_eq_models fun _ hname => hname).2, Nat.sub_self, Nat.pow_zero, Nat.one_mul]
  exact ⟨⟨e.nodup_vars, satCount_eq_models h⟩, satCount_add_not h, _, valid, satisfiable, hown, hvalid, hsatisfiable,
    hvalid_iff.trans tautology_iff_card, hsatisfiable_iff⟩

/-- One model, over a list with one of its names repeated and one name that it does not have. -/
theorem model_count_is_exact_repeated :
    let e : Expr := .and (.var "x") (.not (.var "y"))
    (∀ name ∈ e.vars, name ∈ ["x", "y", "x", "z"]) ∧ e.satCount ["x", "y", "x", "z"] = .ok (2 ^ (4 - 2) * e.models.card) ∧
      e.models.card = 1 ∧ (Expr.not e).satCount ["x", "y", "x", "z"] = .ok 12 ∧ e.isTautology = .ok false ∧
      e.isSatisfiable = .ok true := by
  intro e
  have hnames : ∀ name ∈ e.vars, name ∈ ["x", "y", "x", "z"] := by decide
  have hfour : e.satCount ["x", "y", "x", "z"] = .ok 4 := by decide
  obtain ⟨⟨-, -, hcount⟩, ⟨count, refuting, hsat, hrefuting, hsum⟩, own, valid, satisfiable, hown, hvalid, hsatisfiable,
    hvalid_iff, hsatisfiable_iff⟩ := model_count_is_exact hnames
  have hone : e.satCount e.vars = .ok 1 := by decide
  cases hfour.symm.trans hsat
  cases hone.symm.trans hown
  have hcard : e.models.card = 1 := by
    have hmodels : 4 = 2 ^ (4 - 2) * e.models.card := Except.ok.inj (hfour.symm.trans hcount)
    omega
  have hrest : refuting = 12 := by
    have hall : 4 + refuting = 2 ^ 4 := hsum
    omega
  refine ⟨hnames, hcount, hcard, hrest ▸ hrefuting, ?_, ?_⟩
  · rw [hvalid, Bool.eq_false_iff.mpr fun hv => absurd (hvalid_iff.mp hv) (by decide)]
  · rw [hsatisfiable, hsatisfiable_iff.mpr (by decide)]

end Expr
end Minterm
