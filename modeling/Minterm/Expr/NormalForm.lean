import Minterm.Expr.Basic

/-! Normal forms. Negation normal form has `!` directly above variables only. A conjunctive normal
    form is a chain of conjunctions whose parts are chains of disjunctions, a disjunctive one the
    other way round. Conversion pushes negations down and then distributes the inner connective over
    the outer one, which can make a tree exponentially larger. -/

namespace Minterm

/-- The two normal forms, named for the outer connective. -/
inductive Form where
  /-- A conjunction of clauses. -/
  | cnf
  /-- A disjunction of terms. -/
  | dnf
  deriving DecidableEq, Repr

namespace Expr

/-! ### Negation normal form -/

/-- The negation normal form of the tree or, if `negated`, of its negation. -/
def pushNot (negated : Bool) : Expr → Expr
  | .lit b => .lit (b ^^ negated)
  | .var name => if negated then .not (.var name) else .var name
  | .not x => x.pushNot (!negated)
  | .and a b =>
    if negated then .or (a.pushNot negated) (b.pushNot negated)
    else .and (a.pushNot negated) (b.pushNot negated)
  | .or a b =>
    if negated then .and (a.pushNot negated) (b.pushNot negated)
    else .or (a.pushNot negated) (b.pushNot negated)

def toNnf (e : Expr) : Expr := e.pushNot false

/-! ### Parts of a chain -/

/-- Replaces each factor of the topmost chain of conjunctions. -/
def mapFactors (f : Expr → Expr) : Expr → Expr
  | .and a b => .and (a.mapFactors f) (b.mapFactors f)
  | e => f e

/-- Replaces each term of the topmost chain of disjunctions. -/
def mapTerms (f : Expr → Expr) : Expr → Expr
  | .or a b => .or (a.mapTerms f) (b.mapTerms f)
  | e => f e

end Expr

namespace Form

/-- The connective inside a part of the form. -/
def inner : Form → Expr → Expr → Expr
  | .cnf => .or
  | .dnf => .and

/-- The parts of the form: clauses or terms. -/
def parts : Form → Expr → List Expr
  | .cnf => Expr.factors
  | .dnf => Expr.terms

/-- What a part of the form is made of. -/
def subparts : Form → Expr → List Expr
  | .cnf => Expr.terms
  | .dnf => Expr.factors

def mapParts : Form → (Expr → Expr) → Expr → Expr
  | .cnf => Expr.mapFactors
  | .dnf => Expr.mapTerms

/-- Joins two trees with the inner connective, distributed over the outer one: every part of `a` meets
    every part of `b`. -/
def combine (form : Form) (a b : Expr) : Expr :=
  form.mapParts (fun x => form.mapParts (fun y => form.inner x y) b) a

/-- Distributes everywhere, from the leaves to the root. -/
def distribute (form : Form) : Expr → Expr
  | .and a b =>
    match form with
    | .cnf => .and (form.distribute a) (form.distribute b)
    | .dnf => form.combine (form.distribute a) (form.distribute b)
  | .or a b =>
    match form with
    | .cnf => form.combine (form.distribute a) (form.distribute b)
    | .dnf => .or (form.distribute a) (form.distribute b)
  | e => e

end Form

namespace Expr

/-- The normal form of the given kind. -/
def toForm (e : Expr) (form : Form) : Expr := form.distribute e.toNnf

/-- A constant, a variable or a negated variable. -/
def isAtomic : Expr → Bool
  | .lit _ | .var _ => true
  | .not x => x.isVar
  | _ => false

/-- Whether the tree has the shape of the form. -/
def hasForm (e : Expr) (form : Form) : Bool :=
  (form.parts e).all fun part => (form.subparts part).all isAtomic

end Expr
end Minterm
