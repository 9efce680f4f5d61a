/-! Logic gates: their names, how many inputs they take, and which gate computes the complement of
    which. -/

namespace Minterm

/-- The inverter, the connectives of any number of inputs from two on, and those of exactly two. -/
inductive Gate where
  | not
  | and
  | or
  | xor
  | nand
  | nor
  | xnor
  /-- `a → b` -/
  | cond
  | ncond
  /-- `a ← b` -/
  | conv
  | nconv
  /-- `a ↔ b` -/
  | bicond
  | nbicond
  deriving DecidableEq, Inhabited, Repr

/-- How many inputs a gate takes. -/
inductive Arity where
  | exactly (n : Nat)
  | atLeast (n : Nat)
  deriving DecidableEq, Repr

/-- The wording of an arity in a message. -/
def Arity.phrase : Arity → String
  | .exactly n => n.repr
  | .atLeast n => "at least " ++ n.repr

namespace Gate

/-- Every gate once. -/
def all : List Gate :=
  [.not, .and, .or, .xor, .nand, .nor, .xnor, .cond, .ncond, .conv, .nconv, .bicond, .nbicond]

def name : Gate → String
  | .not => "NOT"
  | .and => "AND"
  | .or => "OR"
  | .xor => "XOR"
  | .nand => "NAND"
  | .nor => "NOR"
  | .xnor => "XNOR"
  | .cond => "COND"
  | .ncond => "NCOND"
  | .conv => "CONV"
  | .nconv => "NCONV"
  | .bicond => "BICOND"
  | .nbicond => "NBICOND"

def arity : Gate → Arity
  | .not => .exactly 1
  | .cond | .ncond | .conv | .nconv | .bicond | .nbicond => .exactly 2
  | .and | .or | .xor | .nand | .nor | .xnor => .atLeast 2

/-- The partner of a gate; the inverter is its own. -/
def negated : Gate → Gate
  | .not => .not
  | .and => .nand
  | .nand => .and
  | .or => .nor
  | .nor => .or
  | .xor => .xnor
  | .xnor => .xor
  | .cond => .ncond
  | .ncond => .cond
  | .conv => .nconv
  | .nconv => .conv
  | .bicond => .nbicond
  | .nbicond => .bicond

end Gate
end Minterm
