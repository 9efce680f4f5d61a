import Minterm.Dot.Lexeme

/-! What a text in the DOT language draws. The part of the language that is read here has undirected graphs with
    blocks in them, declarations of nodes and edges with their attributes, and values that are set for a block;
    of these only the rank matters. -/

namespace Minterm.Dot

/-- Names and values in the order in which they are given. -/
abbrev Attributes := List (String × String)

inductive Statement where
  /-- The beginning of a graph, which ends like a block. -/
  | graph
  | opened
  | closed
  | setting (key value : String)
  /-- Attributes of all nodes. -/
  | defaults (attributes : Attributes)
  | node (id : String) (attributes : Attributes)
  | edge (source target : String) (attributes : Attributes)
  deriving DecidableEq, Repr

/-! ### Statements -/

/-- What a list of attributes belongs to. -/
inductive Subject where
  | node (id : String)
  | edge (source target : String)
  deriving DecidableEq, Repr

/-- The name `node` stands for all nodes. -/
def Subject.statement : Subject → Attributes → Statement
  | .node id, attributes => if id = "node" then .defaults attributes else .node id attributes
  | .edge source target, attributes => .edge source target attributes

/-- What has been read of a statement. -/
inductive Part where
  | nothing
  | begun (word : String)
  /-- A word and `=`. -/
  | setting (key : String)
  /-- A word and `--`. -/
  | joining (source : String)
  | joined (source target : String)
  /-- Where an attribute has to begin. -/
  | inside (subject : Subject) (attributes : Attributes)
  | named (subject : Subject) (attributes : Attributes) (name : String)
  /-- Where the value of an attribute is due. -/
  | due (subject : Subject) (attributes : Attributes) (name : String)
  | behind (subject : Subject) (attributes : Attributes)
  /-- Behind the bracket that closes the attributes. -/
  | full (subject : Subject) (attributes : Attributes)
  deriving DecidableEq, Repr

/-- The value that a lexeme stands for. -/
def Lexeme.value? : Lexeme → Option String
  | .word text | .quoted text => some text
  | _ => none

/-- Reads a lexeme, which may complete a statement. -/
def Part.step? : Part → Lexeme → Option (Part × List Statement)
  | .nothing, .mark '{' => some (.nothing, [.opened])
  | .nothing, .mark '}' => some (.nothing, [.closed])
  | .nothing, .word word => some (.begun word, [])
  | .begun word, .mark '{' => if word = "graph" then some (.nothing, [.graph]) else none
  | .begun word, .mark '=' => some (.setting word, [])
  | .begun word, .mark '[' => some (.inside (.node word) [], [])
  | .begun word, .line => some (.joining word, [])
  | .setting key, lexeme => lexeme.value?.map fun value => (.nothing, [.setting key value])
  | .joining source, .word target => some (.joined source target, [])
  | .joined source target, .mark '[' => some (.inside (.edge source target) [], [])
  | .joined source target, .mark ';' => some (.nothing, [.edge source target []])
  | .inside subject attributes, .word name => some (.named subject attributes name, [])
  | .named subject attributes name, .mark '=' => some (.due subject attributes name, [])
  | .due subject attributes name, lexeme =>
    lexeme.value?.map fun value => (.behind subject (attributes ++ [(name, value)]), [])
  | .behind subject attributes, .mark ',' => some (.inside subject attributes, [])
  | .behind subject attributes, .mark ']' => some (.full subject attributes, [])
  | .full subject attributes, .mark ';' => some (.nothing, [subject.statement attributes])
  | _, _ => none

/-! ### Pictures -/

/-- What is drawn, in the order of the text. -/
inductive Element where
  /-- A node, with the rank that is set for the block it is declared in. -/
  | node (id : String) (rank : Option String) (attributes : Attributes)
  | edge (source target : String) (attributes : Attributes)
  deriving DecidableEq, Repr

/-- The ranks that are set for the blocks that are open, the innermost first. -/
abbrev Ranks := List (Option String)

def Ranks.step? : Ranks → Statement → Option (Ranks × List Element)
  | [], .graph => some ([none], [])
  | rank :: ranks, .opened => some (none :: rank :: ranks, [])
  | _ :: ranks, .closed => some (ranks, [])
  | rank :: ranks, .setting key value => some ((if key = "rank" then some value else rank) :: ranks, [])
  | rank :: ranks, .defaults _ => some (rank :: ranks, [])
  | rank :: ranks, .node id attributes => some (rank :: ranks, [.node id rank attributes])
  | rank :: ranks, .edge source target attributes => some (rank :: ranks, [.edge source target attributes])
  | _, _ => none

/-- What a text draws, if it can be read. -/
def picture? (text : String) : Option (List Element) := do
  let lexemes ← lexemes? text
  let statements ← readAll? Part.step? .nothing lexemes
  readAll? Ranks.step? [] statements

/-- The nodes that are declared, with the ranks of the blocks they stand in. -/
def declared (picture : List Element) : List (String × Option String) :=
  picture.filterMap fun
    | .node id rank _ => some (id, rank)
    | .edge .. => none

/-- The ends of the edges. -/
def joined (picture : List Element) : List (String × String) :=
  picture.filterMap fun
    | .node .. => none
    | .edge source target _ => some (source, target)

theorem declared_append (picture more : List Element) :
    declared (picture ++ more) = declared picture ++ declared more :=
  List.filterMap_append

theorem joined_append (picture more : List Element) : joined (picture ++ more) = joined picture ++ joined more :=
  List.filterMap_append

end Minterm.Dot
