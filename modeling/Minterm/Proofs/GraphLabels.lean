import Minterm.Proofs.DotLexemes
import Minterm.Proofs.Lists

/-! The labels in a drawing of an expression. Each line of the drawing either has no label or declares a node of the
    tree or the marker of the root. The label of the marker is read as the text of the expression. The label of a
    node is read as what it is to show, except where this is the name of a variable with a double quote or a
    backslash in it: names are not escaped. -/

namespace Minterm.Graph

/-! ### Escapes -/

/-- A text with another one in the place of every `c`. -/
def replaced (c : Char) (other text : String) : String :=
  String.join (text.toList.map fun d => if d == c then other else d.toString)

/-- To escape is to double the backslashes and then to put a backslash in front of each double quote. -/
theorem escape_eq_replaced (text : String) : escape text = replaced '"' "\\\"" (replaced '\\' "\\\\" text) := by
  have hchar (c : Char) : (if c == '\\' || c == '"' then "\\" ++ c.toString else c.toString) =
      replaced '"' "\\\"" (if c == '\\' then "\\\\" else c.toString) := by
    by_cases hback : c = '\\'
    · subst hback
      decide
    · by_cases hquote : c = '"'
      · subst hquote
        decide
      · simp [replaced, hback, hquote]
  have happend (front back : String) :
      replaced '"' "\\\"" (front ++ back) = replaced '"' "\\\"" front ++ replaced '"' "\\\"" back := by
    rw [replaced, String.toList_append, List.map_append, String.join_append]
    rfl
  rw [escape]
  change _ = replaced '"' "\\\"" (String.join (text.toList.map fun c => if c == '\\' then "\\\\" else c.toString))
  induction text.toList with
  | nil => rfl
  | cons c cs ih =>
    rw [List.map_cons, List.map_cons, String.join_cons, String.join_cons, happend, hchar, ih]

/-! ### Lines with a label -/

/-- What the label of a node is to show. -/
def caption (drawing : Drawing) : Expr → String
  | .lit b => constantLabel drawing b
  | .var name => name
  | .not _ => "!"
  | .and _ _ => "&"
  | .or _ _ => "|"

def isLeaf : Expr → Bool
  | .lit _ | .var _ => true
  | _ => false

def nodeLabel (drawing : Drawing) (x : Expr) : String := "\"" ++ caption drawing x ++ "\""

def rootLabel (e : Expr) : String := "\"" ++ escape e.text ++ "\""

/-- What stands in front of the label of a node. -/
def nodeFront (drawing : Drawing) (x : Expr) (id : Nat) : String :=
  if isLeaf x then id.repr ++ " [shape=" ++ drawing.leafShape ++ ", " else id.repr ++ " ["

def nodeLine (drawing : Drawing) (x : Expr) (id : Nat) : String :=
  nodeFront drawing x id ++ "label=" ++ nodeLabel drawing x ++ "];"

def rootFront (drawing : Drawing) : String := "r [shape=" ++ drawing.rootShape ++ ", "

def rootLine (drawing : Drawing) (e : Expr) : String := rootFront drawing ++ "label=" ++ rootLabel e ++ "];"

theorem label_eq (text : String) : label text = "label=" ++ ("\"" ++ text ++ "\"") := by
  rw [← String.append_assoc, ← String.append_assoc]
  rfl

theorem leafLine?_eq (drawing : Drawing) (x : Expr) (id : Nat) :
    leafLine? drawing x id = if isLeaf x then some (nodeLine drawing x id) else none := by
  cases x with
  | lit b | var name =>
    simp only [leafLine?, isLeaf, if_true, nodeLine, nodeFront, nodeLabel, caption, label_eq, String.append_assoc]
  | _ => rfl

theorem connectiveLine?_eq (drawing : Drawing) (x : Expr) (id : Nat) :
    connectiveLine? x id = if !isLeaf x then some (nodeLine drawing x id) else none := by
  cases x with
  | lit b | var name => rfl
  | _ =>
    simp only [connectiveLine?, isLeaf, Bool.not_false, Bool.false_eq_true, if_true, if_false, nodeLine, nodeFront, nodeLabel, caption,
      label_eq, String.append_assoc]

theorem rootLine_eq (drawing : Drawing) (e : Expr) :
    "r [shape=" ++ drawing.rootShape ++ ", " ++ label (escape e.text) ++ "];" = rootLine drawing e := by
  simp only [rootLine, rootFront, rootLabel, label_eq, String.append_assoc]

/-- The leaves of a tree with their numbers, in the order of these. -/
def leaves (e : Expr) : List (Expr × Nat) := (ofExpr 0 e).nodes.zipIdx.filter fun p => isLeaf p.1

def connectives (e : Expr) : List (Expr × Nat) := (ofExpr 0 e).nodes.zipIdx.filter fun p => !isLeaf p.1

theorem lines_eq (drawing : Drawing) (e : Expr) :
    lines drawing e =
      ["graph \x7b", "node [shape=" ++ drawing.nodeShape ++ ", fixedsize=true];", "\x7b rank=sink"] ++
        (leaves e).map (fun p => nodeLine drawing p.1 p.2) ++ ["\x7d"] ++
        (connectives e).map (fun p => nodeLine drawing p.1 p.2) ++
        (ofExpr 0 e).edges.map (fun edge => edgeLine drawing (ofExpr 0 e) edge.1 edge.2) ++
        ["\x7b rank=source", rootLine drawing e, "\x7d", "r -- 0;", "\x7d"] := by
  have hleaves : ((ofExpr 0 e).nodes.zipIdx.filterMap fun p => leafLine? drawing p.1 p.2) =
      (leaves e).map fun p => nodeLine drawing p.1 p.2 := by
    simp only [leafLine?_eq]
    exact filterMap_ite (fun p : Expr × Nat => isLeaf p.1) _ _
  have hconnectives : ((ofExpr 0 e).nodes.zipIdx.filterMap fun p => connectiveLine? p.1 p.2) =
      (connectives e).map fun p => nodeLine drawing p.1 p.2 := by
    simp only [connectiveLine?_eq drawing]
    exact filterMap_ite (fun p : Expr × Nat => !isLeaf p.1) _ _
  rw [lines, rootLine_eq, ← hleaves, ← hconnectives]

/-- The lines without a label. -/
def bareLines (drawing : Drawing) (e : Expr) : List String :=
  ["graph \x7b", "node [shape=" ++ drawing.nodeShape ++ ", fixedsize=true];", "\x7b rank=sink", "\x7d",
    "\x7b rank=source", "r -- 0;"] ++
    (ofExpr 0 e).edges.map fun edge => edgeLine drawing (ofExpr 0 e) edge.1 edge.2

theorem perm_nodes (e : Expr) : (leaves e ++ connectives e).Perm (ofExpr 0 e).nodes.zipIdx :=
  List.filter_append_perm _ _

/-- Every line declares a node or the marker of the root, or it has no label. -/
theorem mem_lines {drawing : Drawing} {e : Expr} {line : String} :
    line ∈ lines drawing e ↔
      (∃ id x, (ofExpr 0 e).nodes[id]? = some x ∧ line = nodeLine drawing x id) ∨ line = rootLine drawing e ∨
        line ∈ bareLines drawing e := by
  have hnodes : (∃ id x, (ofExpr 0 e).nodes[id]? = some x ∧ line = nodeLine drawing x id) ↔
      line ∈ (leaves e).map (fun p => nodeLine drawing p.1 p.2) ∨
        line ∈ (connectives e).map fun p => nodeLine drawing p.1 p.2 := by
    rw [← List.mem_append, ← List.map_append, List.mem_map]
    constructor
    · rintro ⟨id, x, hx, rfl⟩
      exact ⟨(x, id), (perm_nodes e).mem_iff.mpr (List.mk_mem_zipIdx_iff_getElem?.mpr hx), rfl⟩
    · rintro ⟨⟨x, id⟩, hp, rfl⟩
      exact ⟨id, x, List.mk_mem_zipIdx_iff_getElem?.mp ((perm_nodes e).mem_iff.mp hp), rfl⟩
  rw [hnodes, lines_eq]
  simp only [bareLines, List.mem_append, List.mem_cons, List.not_mem_nil, or_false]
  grind only

/-! ### What the labels are read as -/

theorem isPlain_caption_iff {drawing : Drawing} {x : Expr} :
    Dot.IsPlain (caption drawing x) ↔ ∀ name, x = .var name → Dot.IsPlain name := by
  have hconnectives : ∀ text ∈ ["!", "&", "|"], Dot.IsPlain text := by decide
  cases x with
  | var name => exact ⟨fun h _ heq => Expr.var.inj heq ▸ h, fun h => h name rfl⟩
  | lit b =>
    refine iff_of_true ?_ fun _ heq => nomatch heq
    rw [caption, constantLabel, Expr.litText]
    cases drawing.binaryConstants <;> cases b <;> decide
  | not y => exact iff_of_true (hconnectives "!" (by decide)) fun _ heq => nomatch heq
  | and a b => exact iff_of_true (hconnectives "&" (by decide)) fun _ heq => nomatch heq
  | or a b => exact iff_of_true (hconnectives "|" (by decide)) fun _ heq => nomatch heq

/-- Every line of a drawing declares a node, with the label between `label=` and the closing bracket, or the marker
    of the root, in the same way, or it has no label. Read as text of the language, the label of a node is the
    quoted caption of the node, unless this is the name of a variable with a double quote or a backslash in it;
    the label of the marker is the quoted text of the expression. -/
theorem labels_are_quoted_unless_a_name_is_special (drawing : Drawing) (e : Expr) :
    (∀ line, line ∈ lines drawing e ↔
      (∃ id x, (ofExpr 0 e).nodes[id]? = some x ∧
        line = nodeFront drawing x id ++ "label=" ++ nodeLabel drawing x ++ "];") ∨
      line = rootFront drawing ++ "label=" ++ rootLabel e ++ "];" ∨
      line ∈ bareLines drawing e) ∧
    (∀ x ∈ (ofExpr 0 e).nodes, Dot.lexemes? (nodeLabel drawing x) = some [.quoted (caption drawing x)] ↔
      ∀ name, x = .var name → Dot.IsPlain name) ∧
    Dot.lexemes? (rootLabel e) = some [.quoted e.text] := by
  refine ⟨fun line => mem_lines, fun x _ => ?_, Dot.lexemes?_escape e.text⟩
  rw [nodeLabel, Dot.lexemes?_quotes_iff, isPlain_caption_iff]

/-- Two variables, of which only one has a name that is read as itself, in a drawing with other shapes. -/
theorem labels_are_quoted_unless_a_name_is_special_escaped :
    let e : Expr := .and (.var "a b") (.not (.var "a\"b\\"))
    let drawing : Drawing := { leafShape := "box", binaryConstants := true }
    "1 [shape=box, label=\"a b\"];" ∈ lines drawing e ∧
      Dot.lexemes? (nodeLabel drawing (.var "a b")) = some [.quoted "a b"] ∧
      Dot.lexemes? (nodeLabel drawing (.var "a\"b\\")) ≠ some [.quoted "a\"b\\"] ∧
      Dot.lexemes? (rootLabel e) = some [.quoted e.text] := by
  intro e drawing
  obtain ⟨hlines, hnodes, hroot⟩ := labels_are_quoted_unless_a_name_is_special drawing e
  have hplain : ∀ name, Expr.var "a b" = .var name → Dot.IsPlain name := by
    rintro _ ⟨⟩
    decide
  refine ⟨(hlines _).mpr (.inl ⟨1, .var "a b", by decide, by decide⟩), (hnodes _ (by decide)).mpr hplain, ?_, hroot⟩
  intro hread
  have hspecial := (hnodes _ (by decide)).mp hread _ rfl
  exact absurd hspecial (by decide)

/-- The label of a variable with a double quote in its name ends in the middle of the name. -/
theorem quote_in_a_name_ends_the_label :
    "0 [shape=square, label=\"a\"b\"];" ∈ lines {} (.var "a\"b") ∧
      ¬ ∀ (drawing : Drawing) (e : Expr), ∀ x ∈ (ofExpr 0 e).nodes,
        Dot.lexemes? (nodeLabel drawing x) = some [.quoted (caption drawing x)] := by
  refine ⟨by decide, fun h => ?_⟩
  have hread : Dot.lexemes? "\"a\"b\"" = some [.quoted "a\"b"] := h {} (.var "a\"b") _ List.mem_cons_self
  exact absurd hread (by decide)

end Minterm.Graph
