import LuaTypes.Tree.Basic

/-!
# Nodes in their place

A node is an inner node of a tree together with where it stands: its first byte and everything
that lies above it up to the root. Two nodes may look alike, and even cover the same bytes; their
places tell them apart.

* `Node.root`, `Node.children`, `Node.parent?`, `Node.ancestors` and `Node.preorder` walk a tree
  (`preorder_eq`: a node comes before its children, and these in order);
* `Node.place` names a node within its tree;
* `Node.kind`, `Node.start`, `Node.width`, `Node.text` and `Node.tokens` read it.
-/

namespace LuaTypes

/-- An inner node and where it stands below its parent: its first byte and its position among its
siblings, tokens included. -/
structure Site where
  label : Label
  content : List Tree
  start : Nat
  index : Nat
  deriving Repr

/-- A node of a tree, with the sites above it from its parent to the root. -/
structure Node extends Site where
  above : List Site
  deriving Repr

/-- A token below a node. -/
structure Token where
  kind : Kind
  text : String
  deriving DecidableEq, Repr

/-- The tokens among trees, in order. -/
def tokensOf (trees : List Tree) : List Token :=
  trees.filterMap fun
    | .token kind text => some ⟨kind, text⟩
    | .node .. => none

namespace Node

/-- The root of a tree; a lone token has none. -/
def root? : Tree → Option Node
  | .node label content => some ⟨⟨label, content, 0, 0⟩, []⟩
  | .token .. => none

/-- The kind of a node. -/
def kind (node : Node) : Reading Kind := node.label.kind

/-- The length of a node in UTF-8 bytes. -/
def width (node : Node) : Nat := Tree.widthAll node.content

/-- The source text of a node, blanks included. -/
def text (node : Node) : String := Tree.textAll node.content

/-- The tokens directly below a node. -/
def tokens (node : Node) : List Token := tokensOf node.content

/-- The first token of a kind directly below a node. -/
def token? (node : Node) (kind : Kind) : Option Token := node.tokens.find? (·.kind = kind)

/-- The inner nodes among trees that stand side by side below `above`, the first of them at byte
`start` and position `index`. -/
def siblings (above : List Site) (start index : Nat) : List Tree → List Node
  | [] => []
  | .token _ text :: rest => siblings above (start + text.utf8ByteSize) (index + 1) rest
  | .node label content :: rest =>
    ⟨⟨label, content, start, index⟩, above⟩ ::
      siblings above (start + Tree.widthAll content) (index + 1) rest

/-- The nodes directly below a node. -/
def children (node : Node) : List Node :=
  siblings (node.toSite :: node.above) node.start 0 node.content

/-- The node directly above. -/
def parent? (node : Node) : Option Node :=
  match node.above with
  | [] => none
  | site :: above => some ⟨site, above⟩

/-- A site and the sites above it as nodes, innermost first. -/
def chain : List Site → List Node
  | [] => []
  | site :: above => ⟨site, above⟩ :: chain above

/-- A node and the nodes above it, innermost first. -/
def ancestors (node : Node) : List Node := node :: chain node.above

/-- The positions from a node up to the root; within one tree they name the node. -/
def place (node : Node) : List Nat := node.index :: node.above.map (·.index)

mutual

/-- The inner nodes of a tree, each before those below it. -/
def preorderAt (above : List Site) (start index : Nat) : Tree → List Node
  | .token .. => []
  | .node label content =>
    ⟨⟨label, content, start, index⟩, above⟩ ::
      preorderFrom (⟨label, content, start, index⟩ :: above) start 0 content

/-- The inner nodes of trees that stand side by side. -/
def preorderFrom (above : List Site) (start index : Nat) : List Tree → List Node
  | [] => []
  | tree :: rest =>
    preorderAt above start index tree ++ preorderFrom above (start + tree.width) (index + 1) rest

end

/-- The nodes strictly below a node, each before those below it. -/
def below (node : Node) : List Node :=
  preorderFrom (node.toSite :: node.above) node.start 0 node.content

/-- A node and all nodes below it, each before those below it. -/
def preorder (node : Node) : List Node := node :: node.below

theorem preorderAt_node (above : List Site) (start index : Nat) (label : Label)
    (content : List Tree) :
    preorderAt above start index (.node label content) =
      preorder ⟨⟨label, content, start, index⟩, above⟩ := rfl

theorem preorderFrom_eq (above : List Site) (start index : Nat) (trees : List Tree) :
    preorderFrom above start index trees = (siblings above start index trees).flatMap preorder := by
  induction trees generalizing start index with
  | nil => rfl
  | cons tree rest ih =>
    cases tree with
    | token kind text => simp [preorderFrom, preorderAt, siblings, Tree.width, ih]
    | node label content =>
      simp [preorderFrom, preorderAt_node, siblings, Tree.width, ih]

/-- A node comes first, then what its children list, in order. -/
theorem preorder_eq (node : Node) : node.preorder = node :: node.children.flatMap preorder := by
  rw [preorder, below, preorderFrom_eq, children]

theorem utf8ByteSize_text (node : Node) : node.text.utf8ByteSize = node.width :=
  Tree.utf8ByteSize_textAll node.content

end Node

/-- All nodes of a tree, each before those below it. -/
def Tree.nodes (tree : Tree) : List Node :=
  match Node.root? tree with
  | some root => root.preorder
  | none => []

end LuaTypes
