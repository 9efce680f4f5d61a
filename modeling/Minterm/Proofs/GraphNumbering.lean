import Mathlib.Data.List.Perm.Basic
import Mathlib.Data.List.Range
import Minterm.Graph
import Minterm.Proofs.SimplifiedShape

/-! The numbers of the nodes in the graph of an expression, and its edges. A subtree takes up a block of numbers
    that begins with the number of its root. The parents of its edges have their numbers in this block, which
    keeps the edges below different operands apart. All is shown for any number of the root of the whole tree,
    by induction on the tree or on the way from its root to a node. -/

namespace Minterm.Graph

/-- The operands of a node with the number `n`, from left to right, each with its own number: the first one stands
    next to the node, a second one behind all of the first. -/
def operands (n : Nat) : Expr → List (Nat × Expr)
  | .lit _ | .var _ => []
  | .not x => [(n + 1, x)]
  | .and a b | .or a b => [(n + 1, a), (n + 1 + a.size, b)]

/-! ### Nodes -/

/-- In the tree `e`, whose root has the number `r`, the subtree `x` has the number `n`. -/
inductive IsNode : Nat → Expr → Nat → Expr → Prop
  | root (r : Nat) (e : Expr) : IsNode r e r e
  | not {r n : Nat} {y x : Expr} : IsNode (r + 1) y n x → IsNode r (.not y) n x
  | andLeft {r n : Nat} {a b x : Expr} : IsNode (r + 1) a n x → IsNode r (.and a b) n x
  | andRight {r n : Nat} {a b x : Expr} : IsNode (r + 1 + a.size) b n x → IsNode r (.and a b) n x
  | orLeft {r n : Nat} {a b x : Expr} : IsNode (r + 1) a n x → IsNode r (.or a b) n x
  | orRight {r n : Nat} {a b x : Expr} : IsNode (r + 1 + a.size) b n x → IsNode r (.or a b) n x

theorem IsNode.bounds {r n : Nat} {e x : Expr} (h : IsNode r e n x) : r ≤ n ∧ n < r + e.size := by
  induction h with
  | root r e =>
    have := e.size_pos
    omega
  | not _ ih | andLeft _ ih | andRight _ ih | orLeft _ ih | orRight _ ih =>
    rw [Expr.size]
    omega

theorem IsNode.operand {r n : Nat} {e x : Expr} (h : IsNode r e n x) {p : Nat × Expr} (hp : p ∈ operands n x) :
    IsNode r e p.1 p.2 := by
  induction h with
  | root r e =>
    cases e with
    | lit b | var name => cases hp
    | not y =>
      obtain rfl := List.mem_singleton.mp hp
      exact .not (.root _ _)
    | and a b =>
      rcases List.mem_pair.mp hp with rfl | rfl
      · exact .andLeft (.root _ _)
      · exact .andRight (.root _ _)
    | or a b =>
      rcases List.mem_pair.mp hp with rfl | rfl
      · exact .orLeft (.root _ _)
      · exact .orRight (.root _ _)
  | not _ ih => exact .not (ih hp)
  | andLeft _ ih => exact .andLeft (ih hp)
  | andRight _ ih => exact .andRight (ih hp)
  | orLeft _ ih => exact .orLeft (ih hp)
  | orRight _ ih => exact .orRight (ih hp)

theorem nodes_ofExpr (r : Nat) (e : Expr) : (ofExpr r e).nodes = e.subtrees := by
  induction e generalizing r with
  | lit b | var name => rfl
  | not x ih => rw [ofExpr, ih, Expr.subtrees]
  | and a b iha ihb | or a b iha ihb => simp only [ofExpr, join, iha, ihb, Expr.subtrees, List.cons_append]

theorem length_nodes (r : Nat) (e : Expr) : (ofExpr r e).nodes.length = e.size := by
  induction e generalizing r with
  | lit b | var name => rfl
  | not x ih => rw [ofExpr, List.length_cons, ih, Expr.size, Nat.add_comm]
  | and a b iha ihb | or a b iha ihb =>
    simp only [ofExpr, join, List.cons_append, List.length_cons, List.length_append, iha, ihb, Expr.size]
    omega

theorem length_subtrees (e : Expr) : e.subtrees.length = e.size := by
  rw [← nodes_ofExpr 0, length_nodes]

/-- What stands below a connective of two operands belongs to one of them. -/
theorem getElem?_operands {a b x : Expr} {i : Nat} :
    (a.subtrees ++ b.subtrees)[i]? = some x ↔
      a.subtrees[i]? = some x ∨ ∃ j, i = a.size + j ∧ b.subtrees[j]? = some x := by
  rw [List.getElem?_append, length_subtrees]
  split
  · rename_i hi
    exact ⟨.inl, fun h => h.elim id fun ⟨j, hj, _⟩ => by omega⟩
  · rename_i hi
    have hnone : a.subtrees[i]? = none := List.getElem?_eq_none (length_subtrees a ▸ Nat.le_of_not_lt hi)
    refine ⟨fun h => .inr ⟨i - a.size, by omega, h⟩, ?_⟩
    rintro (h | ⟨j, rfl, h⟩)
    · rw [hnone] at h
      cases h
    · rwa [Nat.add_sub_cancel_left]

theorem isNode_of_getElem?_zero {r : Nat} {e x : Expr} (h : e.subtrees[0]? = some x) : IsNode r e r x := by
  have hroot : x = e := by cases e <;> exact (Option.some.inj h).symm
  exact hroot ▸ .root r e

theorem isNode_of_getElem? {r i n : Nat} {e x : Expr} (h : e.subtrees[i]? = some x) (hn : n = r + i) :
    IsNode r e n x := by
  induction e generalizing r i with
  | lit b | var name =>
    cases i with
    | zero => exact hn ▸ isNode_of_getElem?_zero h
    | succ i => cases h
  | not y ih =>
    cases i with
    | zero => exact hn ▸ isNode_of_getElem?_zero h
    | succ i => exact .not (ih h (by omega))
  | and a b iha ihb =>
    cases i with
    | zero => exact hn ▸ isNode_of_getElem?_zero h
    | succ i =>
      rcases getElem?_operands.mp h with ha | ⟨j, rfl, hb⟩
      · exact .andLeft (iha ha (by omega))
      · exact .andRight (ihb hb (by omega))
  | or a b iha ihb =>
    cases i with
    | zero => exact hn ▸ isNode_of_getElem?_zero h
    | succ i =>
      rcases getElem?_operands.mp h with ha | ⟨j, rfl, hb⟩
      · exact .orLeft (iha ha (by omega))
      · exact .orRight (ihb hb (by omega))

theorem getElem?_of_isNode {r n : Nat} {e x : Expr} (h : IsNode r e n x) :
    ∃ i, n = r + i ∧ e.subtrees[i]? = some x := by
  induction h with
  | root r e => exact ⟨0, rfl, by cases e <;> rfl⟩
  | not _ ih =>
    obtain ⟨i, hn, hi⟩ := ih
    exact ⟨i + 1, by omega, hi⟩
  | andLeft _ ih | orLeft _ ih =>
    obtain ⟨i, hn, hi⟩ := ih
    exact ⟨i + 1, by omega, getElem?_operands.mpr (.inl hi)⟩
  | @andRight _ _ a _ _ _ ih | @orRight _ _ a _ _ _ ih =>
    obtain ⟨i, hn, hi⟩ := ih
    exact ⟨a.size + i + 1, by omega, getElem?_operands.mpr (.inr ⟨i, rfl, hi⟩)⟩

/-- The nodes of a graph by number are the nodes of the tree. -/
theorem getElem?_nodes {n : Nat} {e x : Expr} : (ofExpr 0 e).nodes[n]? = some x ↔ IsNode 0 e n x := by
  rw [nodes_ofExpr]
  constructor
  · intro h
    exact isNode_of_getElem? h (Nat.zero_add n).symm
  · intro h
    obtain ⟨i, rfl, hi⟩ := getElem?_of_isNode h
    rwa [Nat.zero_add]

/-! ### Edges -/

/-- The edges of the operands of a connective, each followed by the edge to its operand. -/
theorem edges_join (r : Nat) (node a b : Expr) :
    (join r node (ofExpr (r + 1) a) (ofExpr (r + 1 + (ofExpr (r + 1) a).nodes.length) b)).edges =
      (ofExpr (r + 1) a).edges ++ (r, r + 1) :: (ofExpr (r + 1 + a.size) b).edges ++ [(r, r + 1 + a.size)] := by
  rw [join, length_nodes]

theorem edges_and (r : Nat) (a b : Expr) :
    (ofExpr r (.and a b)).edges =
      (ofExpr (r + 1) a).edges ++ (r, r + 1) :: (ofExpr (r + 1 + a.size) b).edges ++ [(r, r + 1 + a.size)] :=
  edges_join r _ a b

theorem edges_or (r : Nat) (a b : Expr) :
    (ofExpr r (.or a b)).edges =
      (ofExpr (r + 1) a).edges ++ (r, r + 1) :: (ofExpr (r + 1 + a.size) b).edges ++ [(r, r + 1 + a.size)] :=
  edges_join r _ a b

theorem edges_not (r : Nat) (x : Expr) : (ofExpr r (.not x)).edges = (ofExpr (r + 1) x).edges ++ [(r, r + 1)] :=
  rfl

/-- An edge leads from a node of the tree to one with a greater number. -/
theorem edge_bounds {r : Nat} {e : Expr} {edge : Nat × Nat} (h : edge ∈ (ofExpr r e).edges) :
    r ≤ edge.1 ∧ edge.1 < edge.2 ∧ edge.2 < r + e.size := by
  induction e generalizing r with
  | lit b | var name => cases h
  | not x ih =>
    have hpos := x.size_pos
    rw [edges_not] at h
    rw [Expr.size]
    rcases List.mem_append.mp h with h | h
    · have := ih h
      omega
    · obtain rfl := List.mem_singleton.mp h
      refine ⟨Nat.le_refl r, Nat.lt_succ_self r, ?_⟩
      omega
  | and a b iha ihb | or a b iha ihb =>
    have hpos := b.size_pos
    simp only [edges_and, edges_or, List.mem_append, List.mem_cons, List.not_mem_nil, or_false] at h
    rw [Expr.size]
    rcases h with (h | rfl | h) | rfl
    · have := iha h
      omega
    · refine ⟨Nat.le_refl r, Nat.lt_succ_self r, ?_⟩
      omega
    · have := ihb h
      omega
    · refine ⟨Nat.le_refl r, ?_, ?_⟩ <;> omega

theorem filter_edges_eq_nil {r n : Nat} {e : Expr} (h : n < r ∨ r + e.size ≤ n) :
    ((ofExpr r e).edges.filter fun edge => edge.1 = n) = [] := by
  rw [List.filter_eq_nil_iff]
  intro edge hedge hn
  have := edge_bounds hedge
  rw [decide_eq_true_eq] at hn
  omega

/-- The edges below a node lead to its operands, from left to right. -/
theorem filter_edges {r n : Nat} {e x : Expr} (h : IsNode r e n x) :
    ((ofExpr r e).edges.filter fun edge => edge.1 = n) = (operands n x).map fun p => (n, p.1) := by
  induction h with
  | root r e =>
    cases e with
    | lit b | var name => rfl
    | not y =>
      rw [edges_not, List.filter_append, filter_edges_eq_nil (.inl (Nat.lt_succ_self r))]
      simp [operands]
    | and a b | or a b =>
      simp only [edges_and, edges_or, List.filter_append, List.filter_cons]
      rw [filter_edges_eq_nil (.inl (Nat.lt_succ_self r)), filter_edges_eq_nil (.inl (by omega))]
      simp [operands]
  | @not r n y _ hy ih =>
    have hne : r ≠ n := by have := hy.bounds; omega
    rw [edges_not, List.filter_append, ih]
    simp [hne]
  | @andLeft r n a b _ ha ih | @orLeft r n a b _ ha ih =>
    have hbounds := ha.bounds
    have hne : r ≠ n := by omega
    have hright : (ofExpr (r + 1 + a.size) b).edges.filter (fun edge => edge.1 = n) = [] :=
      filter_edges_eq_nil (.inl (by omega))
    simp [edges_and, edges_or, ih, hright, hne]
  | @andRight r n a b _ hb ih | @orRight r n a b _ hb ih =>
    have hbounds := hb.bounds
    have hne : r ≠ n := by omega
    have hleft : (ofExpr (r + 1) a).edges.filter (fun edge => edge.1 = n) = [] :=
      filter_edges_eq_nil (.inr (by omega))
    simp [edges_and, edges_or, ih, hleft, hne]

/-- The children of the edges make up the numbers of the tree together with its root. -/
theorem perm_numbers (r : Nat) (e : Expr) :
    ((ofExpr r e).edges.map Prod.snd ++ [r]).Perm (List.range' r e.size) := by
  have block (r n : Nat) : List.range' r (1 + n) = r :: List.range' (r + 1) n := by
    rw [Nat.add_comm, List.range'_succ]
  induction e generalizing r with
  | lit b | var name => exact .refl _
  | not x ih =>
    rw [edges_not, List.map_append, Expr.size, block]
    exact (List.perm_append_singleton _ _).trans ((ih (r + 1)).cons r)
  | and a b iha ihb | or a b iha ihb =>
    have hsplit : (ofExpr (r + 1) a).edges.map Prod.snd ++
          (r + 1) :: (ofExpr (r + 1 + a.size) b).edges.map Prod.snd ++ [r + 1 + a.size] =
        ((ofExpr (r + 1) a).edges.map Prod.snd ++ [r + 1]) ++
          ((ofExpr (r + 1 + a.size) b).edges.map Prod.snd ++ [r + 1 + a.size]) := by simp
    have hoperands := (iha (r + 1)).append (ihb (r + 1 + a.size))
    rw [List.range'_append_1, ← hsplit] at hoperands
    simp only [edges_and, edges_or, List.map_append, List.map_cons, List.map_nil]
    rw [Expr.size, Nat.add_assoc 1, block]
    exact (List.perm_append_singleton _ _).trans (hoperands.cons r)

/-- Every number but that of the root is the child of one edge. -/
theorem perm_children (r : Nat) (e : Expr) :
    ((ofExpr r e).edges.map Prod.snd).Perm (List.range' (r + 1) (e.size - 1)) := by
  have hnumbers := (List.perm_append_singleton _ _).symm.trans (perm_numbers r e)
  rw [← Nat.sub_add_cancel e.size_pos, List.range'_succ] at hnumbers
  exact hnumbers.cons_inv

theorem length_edges (r : Nat) (e : Expr) : (ofExpr r e).edges.length = e.size - 1 := by
  have hlength := (perm_children r e).length_eq
  rwa [List.length_map, List.length_range'] at hlength

/-! ### Numbering on the way -/

def push (graph : Graph) (node : Expr) : Graph := { graph with nodes := graph.nodes ++ [node] }

def link (graph : Graph) (parent child : Nat) : Graph := { graph with edges := graph.edges ++ [(parent, child)] }

/-- Goes through a tree in pre-order and adds what it meets to a graph: the number of the root, and the graph behind
    the tree. -/
def collect : Expr → Graph → Nat × Graph
  | .lit b, graph => (graph.nodes.length, graph.push (.lit b))
  | .var name, graph => (graph.nodes.length, graph.push (.var name))
  | .not x, graph =>
    let (child, below) := collect x (graph.push (.not x))
    (graph.nodes.length, below.link graph.nodes.length child)
  | .and a b, graph =>
    let (left, below) := collect a (graph.push (.and a b))
    let (right, below) := collect b (below.link graph.nodes.length left)
    (graph.nodes.length, below.link graph.nodes.length right)
  | .or a b, graph =>
    let (left, below) := collect a (graph.push (.or a b))
    let (right, below) := collect b (below.link graph.nodes.length left)
    (graph.nodes.length, below.link graph.nodes.length right)

/-- The traversal adds the graph of the tree, numbered from the first free number on. -/
theorem collect_eq (e : Expr) (graph : Graph) :
    collect e graph = (graph.nodes.length,
      ⟨graph.nodes ++ (ofExpr graph.nodes.length e).nodes, graph.edges ++ (ofExpr graph.nodes.length e).edges⟩) := by
  induction e generalizing graph with
  | lit b | var name => simp [collect, push, ofExpr]
  | not x ih => simp [collect, push, link, ofExpr, ih]
  | and a b iha ihb | or a b iha ihb =>
    simp [collect, push, link, ofExpr, join, iha, ihb, Nat.add_assoc, Nat.add_comm]

end Minterm.Graph
