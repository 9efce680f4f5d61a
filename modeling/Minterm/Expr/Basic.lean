/-! Boolean expressions over named variables. A tree is read in two ways: as nested nodes, and as the
    flat list of operands of its topmost chain (`factors` for conjunctions, `terms` for
    disjunctions). -/

namespace Minterm

/-- A Boolean expression: constants, named variables and the three basic connectives. -/
inductive Expr where
  | lit (b : Bool)
  | var (name : String)
  | not (x : Expr)
  | and (a b : Expr)
  | or (a b : Expr)
  deriving DecidableEq, Inhabited, Repr

namespace Expr

/-! ### Kinds of node -/

/-- The constant, if the tree is one. -/
def literal? : Expr → Option Bool
  | .lit b => some b
  | _ => none

def isLit : Expr → Bool
  | .lit _ => true
  | _ => false

def isVar : Expr → Bool
  | .var _ => true
  | _ => false

def isAnd : Expr → Bool
  | .and _ _ => true
  | _ => false

def isOr : Expr → Bool
  | .or _ _ => true
  | _ => false

/-- One of the two trees is the negation of the other. -/
def complements (a b : Expr) : Bool := a == .not b || b == .not a

/-! ### Size, height and variables -/

/-- The number of nodes. -/
def size : Expr → Nat
  | .lit _ | .var _ => 1
  | .not x => 1 + x.size
  | .and a b | .or a b => 1 + a.size + b.size

/-- The number of nodes on a longest path from the root to a leaf. -/
def height : Expr → Nat
  | .lit _ | .var _ => 1
  | .not x => x.height + 1
  | .and a b | .or a b => max a.height b.height + 1

/-- The names at the leaves, from left to right, put before `rest`. -/
def namesOnto : Expr → List String → List String
  | .lit _, rest => rest
  | .var name, rest => name :: rest
  | .not x, rest => x.namesOnto rest
  | .and a b, rest | .or a b, rest => a.namesOnto (b.namesOnto rest)

/-- The names at the leaves, from left to right, with repetitions. -/
def names (e : Expr) : List String := e.namesOnto []

/-- The variables in the order in which they are first met. -/
def vars (e : Expr) : List String := e.names.eraseDups

/-- The variables of `a`, followed by those that only `b` has. -/
def sharedVariables (a b : Expr) : List String := (a.vars ++ b.vars).eraseDups

/-! ### Chains -/

def factorsOnto : Expr → List Expr → List Expr
  | .and a b, rest => a.factorsOnto (b.factorsOnto rest)
  | e, rest => e :: rest

/-- The operands of the topmost chain of conjunctions, from left to right. -/
def factors (e : Expr) : List Expr := e.factorsOnto []

def termsOnto : Expr → List Expr → List Expr
  | .or a b, rest => a.termsOnto (b.termsOnto rest)
  | e, rest => e :: rest

/-- The operands of the topmost chain of disjunctions, from left to right. -/
def terms (e : Expr) : List Expr := e.termsOnto []

/-- The conjunction of a list, nested to the left; `true` if the list is empty. -/
def andAll : List Expr → Expr
  | [] => .lit true
  | e :: es => es.foldl .and e

/-- The disjunction of a list, nested to the left; `false` if the list is empty. -/
def orAll : List Expr → Expr
  | [] => .lit false
  | e :: es => es.foldl .or e

/-! ### Lemmas on the views -/

theorem size_pos (e : Expr) : 0 < e.size := by
  cases e <;> simp only [size] <;> omega

theorem namesOnto_eq (e : Expr) (rest : List String) : e.namesOnto rest = e.names ++ rest := by
  induction e generalizing rest with
  | lit b => rfl
  | var name => rfl
  | not x ih => exact ih rest
  | and a b iha ihb | or a b iha ihb =>
    simp only [names, namesOnto]
    rw [iha, ihb, iha (b.namesOnto []), ihb [], List.append_nil, List.append_assoc]

@[simp] theorem names_lit (b : Bool) : (lit b).names = [] := rfl
@[simp] theorem names_var (name : String) : (var name).names = [name] := rfl
@[simp] theorem names_not (x : Expr) : x.not.names = x.names := rfl
@[simp] theorem names_and (a b : Expr) : (a.and b).names = a.names ++ b.names := namesOnto_eq a _
@[simp] theorem names_or (a b : Expr) : (a.or b).names = a.names ++ b.names := namesOnto_eq a _

theorem mem_vars {e : Expr} {name : String} : name ∈ e.vars ↔ name ∈ e.names :=
  List.mem_eraseDups

theorem factorsOnto_eq (e : Expr) (rest : List Expr) : e.factorsOnto rest = e.factors ++ rest := by
  induction e generalizing rest with
  | and a b iha ihb =>
    simp only [factors, factorsOnto]
    rw [iha, ihb, iha (b.factorsOnto []), ihb [], List.append_nil, List.append_assoc]
  | _ => rfl

@[simp] theorem factors_and (a b : Expr) : (a.and b).factors = a.factors ++ b.factors :=
  factorsOnto_eq a _

theorem factors_eq_singleton {e : Expr} (h : e.isAnd = false) : e.factors = [e] := by
  cases e with
  | and a b => cases h
  | _ => rfl

theorem termsOnto_eq (e : Expr) (rest : List Expr) : e.termsOnto rest = e.terms ++ rest := by
  induction e generalizing rest with
  | or a b iha ihb =>
    simp only [terms, termsOnto]
    rw [iha, ihb, iha (b.termsOnto []), ihb [], List.append_nil, List.append_assoc]
  | _ => rfl

@[simp] theorem terms_or (a b : Expr) : (a.or b).terms = a.terms ++ b.terms := termsOnto_eq a _

theorem terms_eq_singleton {e : Expr} (h : e.isOr = false) : e.terms = [e] := by
  cases e with
  | or a b => cases h
  | _ => rfl

end Expr
end Minterm
