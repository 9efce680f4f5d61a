import Minterm.Dot.Picture
import Minterm.Proofs.GraphLabels
import Minterm.Proofs.GraphNumbering
import Minterm.Proofs.Lexing

/-! The text of a graph, read as text of the DOT language. Each of its lines is read from the beginning of a
    statement to the beginning of another one, so that the lines can be read one by one. What they draw are the
    nodes of the tree, each declared once, and its edges, with the marker of the root and its edge to the root. -/

namespace Minterm

namespace Dot
variable {before between after : Ranks} {found more : List Element}

/-! ### Lines -/

/-- Lines that are read from the beginning of a statement to the beginning of another one: the ranks of the open
    blocks in front of them and behind them, and what they draw. -/
def Draws (before : Ranks) (lines : List String) (after : Ranks) (found : List Element) : Prop :=
  ∃ lexemes statements, Reads .between (String.join (lines.map (· ++ "\n"))) .between lexemes ∧
    run? Part.step? .nothing lexemes = some (.nothing, statements) ∧
    run? Ranks.step? before statements = some (after, found)

theorem Draws.append {lines others : List String} (h : Draws before lines between found)
    (hothers : Draws between others after more) : Draws before (lines ++ others) after (found ++ more) := by
  obtain ⟨lexemes, statements, hlexemes, hstatements, hfound⟩ := h
  obtain ⟨lexemes', statements', hlexemes', hstatements', hmore⟩ := hothers
  refine ⟨lexemes ++ lexemes', statements ++ statements', ?_, run?_append hstatements hstatements',
    run?_append hfound hmore⟩
  rw [List.map_append, String.join_append]
  exact hlexemes.append hlexemes'

theorem Draws.map {α : Type} {line : α → String} {element : α → Element} {xs : List α}
    (h : ∀ x ∈ xs, Draws before [line x] before [element x]) : Draws before (xs.map line) before (xs.map element) := by
  induction xs with
  | nil => exact ⟨[], [], rfl, rfl, rfl⟩
  | cons x xs ih =>
    obtain ⟨hx, hxs⟩ := List.forall_mem_cons.mp h
    exact hx.append (ih hxs)

theorem picture?_of_draws {lines : List String} (h : Draws [] lines [] found) :
    picture? (String.join (lines.map (· ++ "\n"))) = some found := by
  obtain ⟨lexemes, statements, hlexemes, hstatements, hfound⟩ := h
  have hsplit : lexemes? (String.join (lines.map (· ++ "\n"))) = some lexemes := readAll?_of_run? hlexemes
  rw [picture?, hsplit, Option.bind_eq_bind, Option.bind_some, readAll?_of_run? hstatements, Option.bind_eq_bind,
    Option.bind_some, readAll?_of_run? hfound]

theorem draws_line {line : String} {lexemes : List Lexeme} {statement : Statement}
    (hlexemes : Reads .between (line ++ "\n") .between lexemes)
    (hstatement : run? Part.step? .nothing lexemes = some (.nothing, [statement]))
    (hfound : Ranks.step? before statement = some (after, found)) : Draws before [line] after found := by
  refine ⟨lexemes, [statement], ?_, hstatement, ?_⟩
  · rw [List.map_singleton, String.join_cons, String.join_nil, String.append_empty]
    exact hlexemes
  · rw [run?, hfound]
    simp [run?]

/-! ### Kinds of line -/

variable {front id content text : String} {attributes : Attributes} {rank : Option String} {ranks : Ranks}

/-- The declaration of a node: some attributes, and the label as the last one. -/
theorem draws_node {lexemes : List Lexeme} (hfront : Reads .between front .between lexemes)
    (hpart : run? Part.step? .nothing lexemes = some (.inside (.node id) attributes, [])) (hid : id ≠ "node")
    (hcontent : Reads (.quoted []) content (.quoted text.toList) []) :
    Draws (rank :: ranks) [front ++ "label=" ++ ("\"" ++ content ++ "\"") ++ "];"] (rank :: ranks)
      [.node id rank (attributes ++ [("label", text)])] := by
  have hname : Reads .between "label=" .between [.word "label", .mark '='] := rfl
  have hopen : Reads .between "\"" (.quoted []) [] := rfl
  have hlabel : Reads (.quoted []) (content ++ "\"];\n") .between [.quoted text, .mark ']', .mark ';'] :=
    hcontent.quoted fun _ => rfl
  have hlast : run? Part.step? (.inside (.node id) attributes)
      [.word "label", .mark '=', .quoted text, .mark ']', .mark ';'] =
        some (.nothing, [Subject.statement (.node id) (attributes ++ [("label", text)])]) := rfl
  rw [Subject.statement, if_neg hid] at hlast
  have hlexemes := hfront.append (hname.append (hopen.append hlabel))
  exact draws_line (hlexemes.of_eq (by simp [String.append_assoc])) (run?_append hpart hlast) rfl

/-- What stands in front of the label of a node with a shape. -/
theorem reads_shape {shape : String} (hid : IsWord id) (hshape : IsWord shape) :
    Reads .between (id ++ " [shape=" ++ shape ++ ", ") .between
      [.word id, .mark '[', .word "shape", .mark '=', .word shape, .mark ','] := by
  have hfront : Reads .between (id ++ " [shape=") .between [.word id, .mark '[', .word "shape", .mark '='] :=
    .word hid fun _ => rfl
  have hvalue : Reads .between (shape ++ ", ") .between [.word shape, .mark ','] := .word hshape fun _ => rfl
  exact (hfront.append hvalue).of_eq (by simp [String.append_assoc])

/-- An edge, with nothing but a semicolon behind it. -/
theorem draws_edge {source target : String} (hsource : IsWord source) (htarget : IsWord target) :
    Draws (rank :: ranks) [source ++ " -- " ++ target ++ ";"] (rank :: ranks) [.edge source target []] := by
  have hfront : Reads .between (source ++ " -- ") .between [.word source, .line] := .word hsource fun _ => rfl
  have hlast : Reads .between (target ++ ";\n") .between [.word target, .mark ';'] := .word htarget fun _ => rfl
  exact draws_line ((hfront.append hlast).of_eq (by simp [String.append_assoc])) rfl rfl

theorem draws_styled_edge {source target style : String} (hsource : IsWord source) (htarget : IsWord target)
    (hstyle : IsWord style) :
    Draws (rank :: ranks) [source ++ " -- " ++ target ++ " [style=" ++ style ++ "];"] (rank :: ranks)
      [.edge source target [("style", style)]] := by
  have hfront : Reads .between (source ++ " -- ") .between [.word source, .line] := .word hsource fun _ => rfl
  have hmiddle : Reads .between (target ++ " [style=") .between [.word target, .mark '[', .word "style", .mark '='] :=
    .word htarget fun _ => rfl
  have hlast : Reads .between (style ++ "];\n") .between [.word style, .mark ']', .mark ';'] := .word hstyle fun _ => rfl
  exact draws_line ((hfront.append (hmiddle.append hlast)).of_eq (by simp [String.append_assoc])) rfl rfl

theorem draws_defaults {shape : String} (hshape : IsWord shape) :
    Draws (rank :: ranks) ["node [shape=" ++ shape ++ ", fixedsize=true];"] (rank :: ranks) [] := by
  have hfront : Reads .between "node [shape=" .between [.word "node", .mark '[', .word "shape", .mark '='] := rfl
  have hlast : Reads .between (shape ++ ", fixedsize=true];\n") .between
      [.word shape, .mark ',', .word "fixedsize", .mark '=', .word "true", .mark ']', .mark ';'] :=
    .word hshape fun _ => rfl
  exact draws_line ((hfront.append hlast).of_eq (by simp [String.append_assoc])) rfl rfl

theorem draws_graph : Draws [] ["graph \x7b"] [none] [] := ⟨_, _, rfl, rfl, rfl⟩

theorem draws_sink : Draws (rank :: ranks) ["\x7b rank=sink"] (some "sink" :: rank :: ranks) [] := ⟨_, _, rfl, rfl, rfl⟩

theorem draws_source : Draws (rank :: ranks) ["\x7b rank=source"] (some "source" :: rank :: ranks) [] :=
  ⟨_, _, rfl, rfl, rfl⟩

theorem draws_root_edge : Draws (rank :: ranks) ["r -- 0;"] (rank :: ranks) [.edge "r" "0" []] := ⟨_, _, rfl, rfl, rfl⟩

theorem draws_closed : Draws (rank :: ranks) ["\x7d"] ranks [] := ⟨_, _, rfl, rfl, rfl⟩

/-! ### Numbers as words -/

theorem isWord_repr (n : Nat) : IsWord n.repr where
  ne_empty := Nat.repr_ne_empty
  chars := List.all_eq_true.mpr fun _ => Token.isIdentChar_of_mem_repr

/-- A text with something other than digits in it is not the text of a number. -/
theorem repr_ne {n : Nat} {text : String} (h : text.toList.all Char.isDigit = false) : n.repr ≠ text := by
  rintro rfl
  have hdigits : n.repr.toList.all Char.isDigit = true := List.all_eq_true.mpr fun _ => Token.isDigit_of_mem_repr
  exact Bool.false_ne_true (h.symm.trans hdigits)

end Dot

namespace Graph
open Dot
variable {drawing : Drawing} {e x : Expr} {rank : Option String} {ranks : Ranks}

/-! ### What the lines of a graph draw -/

structure Drawing.Plain (drawing : Drawing) : Prop where
  nodeShape : IsWord drawing.nodeShape
  leafShape : IsWord drawing.leafShape
  rootShape : IsWord drawing.rootShape
  negationStyle : IsWord drawing.negationStyle

theorem Drawing.Plain.default : Drawing.Plain {} where
  nodeShape := ⟨by decide, by decide⟩
  leafShape := ⟨by decide, by decide⟩
  rootShape := ⟨by decide, by decide⟩
  negationStyle := ⟨by decide, by decide⟩

/-- The rank that is set where a node is declared. -/
def rankOf (x : Expr) : Option String := if isLeaf x then some "sink" else none

/-- What the line of a node draws. -/
def nodeElement (drawing : Drawing) (x : Expr) (id : Nat) : Element :=
  .node id.repr (rankOf x)
    (if isLeaf x then [("shape", drawing.leafShape), ("label", caption drawing x)] else [("label", caption drawing x)])

def edgeElement (drawing : Drawing) (graph : Graph) (edge : Nat × Nat) : Element :=
  .edge edge.1.repr edge.2.repr
    (match graph.nodes[edge.1]? with
    | some (.not _) => [("style", drawing.negationStyle)]
    | _ => [])

def rootElement (drawing : Drawing) (e : Expr) : Element :=
  .node "r" (some "source") [("shape", drawing.rootShape), ("label", e.text)]

/-- What the text of a graph draws. -/
def elements (drawing : Drawing) (e : Expr) : List Element :=
  (leaves e).map (fun p => nodeElement drawing p.1 p.2) ++ (connectives e).map (fun p => nodeElement drawing p.1 p.2) ++
    (ofExpr 0 e).edges.map (edgeElement drawing (ofExpr 0 e)) ++ [rootElement drawing e, .edge "r" "0" []]

theorem draws_leaf (hdrawing : drawing.Plain) (hx : isLeaf x = true) (hplain : IsPlain (caption drawing x)) (id : Nat) :
    Draws (some "sink" :: ranks) [nodeLine drawing x id] (some "sink" :: ranks) [nodeElement drawing x id] := by
  rw [nodeLine, nodeFront, nodeElement, rankOf, if_pos hx, if_pos hx, if_pos hx]
  exact draws_node (reads_shape (isWord_repr id) hdrawing.leafShape) rfl (repr_ne (by decide)) (reads_plain hplain)

theorem draws_connective (hx : isLeaf x = false) (hplain : IsPlain (caption drawing x)) (id : Nat) :
    Draws (none :: ranks) [nodeLine drawing x id] (none :: ranks) [nodeElement drawing x id] := by
  have hfront : Dot.Reads .between (id.repr ++ " [") .between [.word id.repr, .mark '['] := .word (isWord_repr id) fun _ => rfl
  have hx' : ¬ isLeaf x = true := Bool.eq_false_iff.mp hx
  rw [nodeLine, nodeFront, nodeElement, rankOf, if_neg hx', if_neg hx', if_neg hx']
  exact draws_node hfront rfl (repr_ne (by decide)) (reads_plain hplain)

theorem draws_edgeLine (hdrawing : drawing.Plain) (graph : Graph) (edge : Nat × Nat) :
    Draws (rank :: ranks) [edgeLine drawing graph edge.1 edge.2] (rank :: ranks) [edgeElement drawing graph edge] := by
  have hparent := isWord_repr edge.1
  have hchild := isWord_repr edge.2
  rw [edgeLine, edgeElement]
  cases graph.nodes[edge.1]? with
  | none => exact draws_edge hparent hchild
  | some node =>
    cases node with
    | not y => exact draws_styled_edge hparent hchild hdrawing.negationStyle
    | _ => exact draws_edge hparent hchild

theorem draws_rootLine (hdrawing : drawing.Plain) (e : Expr) :
    Draws (some "source" :: ranks) [rootLine drawing e] (some "source" :: ranks) [rootElement drawing e] := by
  have hr : IsWord "r" := ⟨by decide, by decide⟩
  exact draws_node (reads_shape hr hdrawing.rootShape) rfl (by decide) (reads_escape e.text)

/-- The text of a graph draws its nodes, its edges and the marker of the root. -/
theorem picture?_dot (hdrawing : drawing.Plain) (hnames : ∀ name ∈ e.names, IsPlain name) :
    picture? (e.dot drawing) = some (elements drawing e) := by
  have hcaption : ∀ p ∈ (ofExpr 0 e).nodes.zipIdx, IsPlain (caption drawing p.1) := by
    intro p hp
    have hmem : p.1 ∈ e.subtrees := nodes_ofExpr 0 e ▸ List.fst_mem_of_mem_zipIdx hp
    exact isPlain_caption_iff.mpr fun name heq => hnames name (Expr.mem_names_of_mem_subtrees (heq ▸ hmem))
  have hleaves : Draws [some "sink", none] ((leaves e).map fun p => nodeLine drawing p.1 p.2) [some "sink", none]
      ((leaves e).map fun p => nodeElement drawing p.1 p.2) := .map fun p hp =>
    have ⟨hmem, hleaf⟩ := List.mem_filter.mp hp
    draws_leaf hdrawing hleaf (hcaption p hmem) p.2
  have hconnectives : Draws [none] ((connectives e).map fun p => nodeLine drawing p.1 p.2) [none]
      ((connectives e).map fun p => nodeElement drawing p.1 p.2) := .map fun p hp =>
    have ⟨hmem, hleaf⟩ := List.mem_filter.mp hp
    draws_connective (Bool.not_eq_true' _ ▸ hleaf) (hcaption p hmem) p.2
  have hedges : Draws [none] ((ofExpr 0 e).edges.map fun edge => edgeLine drawing (ofExpr 0 e) edge.1 edge.2) [none]
      ((ofExpr 0 e).edges.map (edgeElement drawing (ofExpr 0 e))) :=
    .map fun edge _ => draws_edgeLine hdrawing _ edge
  have hhead : Draws [] ["graph \x7b", "node [shape=" ++ drawing.nodeShape ++ ", fixedsize=true];", "\x7b rank=sink"]
      [some "sink", none] [] :=
    (draws_graph.append ((draws_defaults hdrawing.nodeShape).append draws_sink) :)
  have hroot : Draws [none] ["\x7b rank=source", rootLine drawing e, "\x7d", "r -- 0;", "\x7d"] []
      [rootElement drawing e, .edge "r" "0" []] := by
    have hline : Draws [some "source", none] [rootLine drawing e] [some "source", none] [rootElement drawing e] :=
      draws_rootLine hdrawing e
    exact draws_source.append (hline.append (draws_closed.append (draws_root_edge.append draws_closed)))
  have hlines := ((((hhead.append hleaves).append draws_closed).append hconnectives).append hedges).append hroot
  simp only [List.nil_append, List.append_nil] at hlines
  rw [Expr.dot, lines_eq]
  exact picture?_of_draws hlines

/-! ### The tree in the text -/

theorem declared_elements (drawing : Drawing) (e : Expr) :
    (declared (elements drawing e)).Perm
      (("r", some "source") :: (ofExpr 0 e).nodes.zipIdx.map fun p => (p.2.repr, rankOf p.1)) := by
  have hnodes (ps : List (Expr × Nat)) :
      declared (ps.map fun p => nodeElement drawing p.1 p.2) = ps.map fun p => (p.2.repr, rankOf p.1) := by
    simp [declared, nodeElement]
  have hedges (edges : List (Nat × Nat)) : declared (edges.map (edgeElement drawing (ofExpr 0 e))) = [] := by
    simp [declared, edgeElement]
  have hroot : declared [rootElement drawing e, .edge "r" "0" []] = [("r", some "source")] := rfl
  rw [elements, declared_append, declared_append, declared_append, hnodes, hnodes, hedges, hroot, List.append_nil,
    ← List.map_append]
  exact (List.perm_append_singleton _ _).trans (((perm_nodes e).map _).cons _)

theorem joined_elements (drawing : Drawing) (e : Expr) :
    joined (elements drawing e) =
      (ofExpr 0 e).edges.map (fun edge => (edge.1.repr, edge.2.repr)) ++ [("r", "0")] := by
  have hnodes (ps : List (Expr × Nat)) : joined (ps.map fun p => nodeElement drawing p.1 p.2) = [] := by
    simp [joined, nodeElement]
  have hedges (edges : List (Nat × Nat)) : joined (edges.map (edgeElement drawing (ofExpr 0 e))) =
      edges.map fun edge => (edge.1.repr, edge.2.repr) := by
    rw [joined, List.filterMap_map, ← List.filterMap_eq_map]
    rfl
  rw [elements, joined_append, joined_append, joined_append, hnodes, hnodes, hedges]
  rfl

/-- No number is declared twice, and none is the name of the marker. -/
theorem nodup_declared_elements (drawing : Drawing) (e : Expr) :
    ((declared (elements drawing e)).map Prod.fst).Nodup := by
  have hnumbers : ((ofExpr 0 e).nodes.zipIdx.map fun p => (p.2.repr, rankOf p.1)).map Prod.fst =
      (List.range' 0 (ofExpr 0 e).nodes.length).map Nat.repr := by
    rw [← List.zipIdx_map_snd, List.map_map, List.map_map]
    rfl
  rw [((declared_elements drawing e).map Prod.fst).nodup_iff, List.map_cons, hnumbers, List.nodup_cons]
  constructor
  · intro hr
    obtain ⟨n, -, hn⟩ := List.mem_map.mp hr
    exact repr_ne (by decide) hn
  · exact List.Nodup.map (fun _ _ => Token.repr_injective) List.nodup_range'

/-- The graph of an expression, as the traversal collects it from nothing, is its tree. The root has the number zero
    and every operand the number that its place gives it. The edges below a node lead to its operands, from left to
    right. Every number but zero is the child of one edge, whose parent has a smaller number. If the names consist of
    identifier characters, the text of the graph declares every number once, leaves in a block of rank `sink` and
    connectives outside of it, and it has the edges of the graph and the one from the marker to the root. -/
theorem graph_is_the_tree (e : Expr) :
    let graph := ofExpr 0 e
    collect e ⟨[], []⟩ = (0, graph) ∧
    (graph.nodes.length = e.size ∧ graph.nodes[0]? = some e ∧
      ∀ n x, graph.nodes[n]? = some x →
        (∀ p ∈ operands n x, graph.nodes[p.1]? = some p.2) ∧
        (graph.edges.filter fun edge => edge.1 = n) = (operands n x).map fun p => (n, p.1)) ∧
    (graph.edges.length = e.size - 1 ∧ (graph.edges.map Prod.snd).Perm (List.range' 1 (e.size - 1)) ∧
      ∀ edge ∈ graph.edges, edge.1 < edge.2) ∧
    ((∀ name ∈ e.names, ∀ c ∈ name.toList, Token.isIdentChar c = true) →
      ∃ picture, picture? (e.dot {}) = some picture ∧
        (declared picture).Perm (("r", some "source") :: graph.nodes.zipIdx.map fun p =>
          (p.2.repr, if isLeaf p.1 then some "sink" else none)) ∧
        ((declared picture).map Prod.fst).Nodup ∧
        joined picture = graph.edges.map (fun edge => (edge.1.repr, edge.2.repr)) ++ [("r", "0")]) := by
  refine ⟨collect_eq e ⟨[], []⟩, ⟨length_nodes 0 e, getElem?_nodes.mpr (.root 0 e), fun n x hx => ?_⟩,
    ⟨length_edges 0 e, perm_children 0 e, fun edge hedge => (edge_bounds hedge).2.1⟩, fun hnames => ?_⟩
  · have hnode := getElem?_nodes.mp hx
    exact ⟨fun p hp => getElem?_nodes.mpr (hnode.operand hp), filter_edges hnode⟩
  · exact ⟨elements {} e, picture?_dot .default fun name hname => isPlain_of_isIdentChar (hnames name hname),
      declared_elements {} e, nodup_declared_elements {} e, joined_elements {} e⟩

/-- A negation below a conjunction, in front of a variable. -/
theorem graph_is_the_tree_nested :
    let e : Expr := .and (.not (.var "x_1")) (.var "y")
    let graph := ofExpr 0 e
    (∀ name ∈ e.names, ∀ c ∈ name.toList, Token.isIdentChar c = true) ∧
      graph.nodes[1]? = some (.not (.var "x_1")) ∧ graph.nodes[2]? = some (.var "x_1") ∧
      (graph.edges.filter fun edge => edge.1 = 0) = [(0, 1), (0, 3)] ∧
      ∃ picture, picture? (e.dot {}) = some picture ∧
        (declared picture).Perm [("r", some "source"), ("0", none), ("1", none), ("2", some "sink"), ("3", some "sink")] ∧
        joined picture = [("1", "2"), ("0", "1"), ("0", "3"), ("r", "0")] := by
  intro e graph
  obtain ⟨-, ⟨-, hroot, hoperands⟩, -, htext⟩ := graph_is_the_tree e
  have hall : (e.names.all fun name => name.toList.all Token.isIdentChar) = true := by decide
  have hnames : ∀ name ∈ e.names, ∀ c ∈ name.toList, Token.isIdentChar c = true := fun name hname =>
    List.all_eq_true.mp (List.all_eq_true.mp hall name hname)
  obtain ⟨picture, hpicture, hdeclared, -, hjoined⟩ := htext hnames
  obtain ⟨hnodes, hedges⟩ := hoperands 0 e hroot
  have hnot := hnodes (1, .not (.var "x_1")) (by decide)
  exact ⟨hnames, hnot, (hoperands 1 _ hnot).1 (2, .var "x_1") (by decide), hedges, picture, hpicture, hdeclared, hjoined⟩

end Graph
end Minterm
