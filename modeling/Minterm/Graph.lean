import Minterm.Expr.Printer

/-! Expression trees as graphs, written in the DOT language. Every node of the tree has its own number,
    in pre-order from zero; equal subtrees are not merged. Leaves stand on the lowest rank, and a marker
    with the text of the whole expression on the highest. -/

namespace Minterm

/-- The nodes of a tree by number, and its edges from parent to child. -/
structure Graph where
  nodes : List Expr
  edges : List (Nat × Nat)
  deriving DecidableEq, Repr

namespace Graph

/-- The graphs of two operands below a node with the number `root`. An edge follows the edges below it,
    and what belongs to the left operand precedes what belongs to the right one. -/
def join (root : Nat) (node : Expr) (left right : Graph) : Graph :=
  ⟨node :: left.nodes ++ right.nodes,
    left.edges ++ (root, root + 1) :: right.edges ++ [(root, root + 1 + left.nodes.length)]⟩

/-- Numbers the nodes of a tree from `root` on. -/
def ofExpr (root : Nat) : Expr → Graph
  | .lit b => ⟨[.lit b], []⟩
  | .var name => ⟨[.var name], []⟩
  | .not x =>
    let below := ofExpr (root + 1) x
    ⟨.not x :: below.nodes, below.edges ++ [(root, root + 1)]⟩
  | .and a b =>
    let left := ofExpr (root + 1) a
    join root (.and a b) left (ofExpr (root + 1 + left.nodes.length) b)
  | .or a b =>
    let left := ofExpr (root + 1) a
    join root (.or a b) left (ofExpr (root + 1 + left.nodes.length) b)

/-- How a graph is drawn. -/
structure Drawing where
  nodeShape : String := "circle"
  leafShape : String := "square"
  rootShape : String := "rect"
  /-- The style of the edge below a negation. -/
  negationStyle : String := "dashed"
  /-- Constants are labelled `1` and `0`. -/
  binaryConstants : Bool := false
  deriving Repr

/-- A text between double quotes, with nothing escaped. -/
def label (text : String) : String := "label=\"" ++ text ++ "\""

/-- Backslashes and double quotes each with a backslash before them. -/
def escape (text : String) : String :=
  String.join (text.toList.map fun c => if c == '\\' || c == '"' then "\\" ++ c.toString else c.toString)

def constantLabel (drawing : Drawing) (b : Bool) : String :=
  if drawing.binaryConstants then (if b then "1" else "0") else Expr.litText b

/-- The line that declares a leaf; other nodes have none. -/
def leafLine? (drawing : Drawing) (node : Expr) (id : Nat) : Option String :=
  let line (text : String) := id.repr ++ " [shape=" ++ drawing.leafShape ++ ", " ++ label text ++ "];"
  match node with
  | .lit b => some (line (constantLabel drawing b))
  | .var name => some (line name)
  | _ => none

/-- The line that declares a connective; leaves have none. -/
def connectiveLine? (node : Expr) (id : Nat) : Option String :=
  let line (text : String) := id.repr ++ " [" ++ label text ++ "];"
  match node with
  | .not _ => some (line "!")
  | .and _ _ => some (line "&")
  | .or _ _ => some (line "|")
  | _ => none

def edgeLine (drawing : Drawing) (graph : Graph) (parent child : Nat) : String :=
  let edge := parent.repr ++ " -- " ++ child.repr
  match graph.nodes[parent]? with
  | some (.not _) => edge ++ " [style=" ++ drawing.negationStyle ++ "];"
  | _ => edge ++ ";"

/-- The lines of the graph of an expression. -/
def lines (drawing : Drawing) (e : Expr) : List String :=
  let graph := ofExpr 0 e
  let numbered := graph.nodes.zipIdx
  ["graph \x7b", "node [shape=" ++ drawing.nodeShape ++ ", fixedsize=true];", "\x7b rank=sink"] ++
    numbered.filterMap (fun (node, id) => leafLine? drawing node id) ++ ["\x7d"] ++
    numbered.filterMap (fun (node, id) => connectiveLine? node id) ++
    graph.edges.map (fun (parent, child) => edgeLine drawing graph parent child) ++
    ["\x7b rank=source", "r [shape=" ++ drawing.rootShape ++ ", " ++ label (escape e.text) ++ "];", "\x7d",
      "r -- 0;", "\x7d"]

end Graph

/-- The graph of an expression in the DOT language. -/
def Expr.dot (e : Expr) (drawing : Graph.Drawing) : String :=
  String.join ((Graph.lines drawing e).map (· ++ "\n"))

end Minterm
