import LuaTypes.Text.Escaped
import LuaTypes.Tree.Node

/-!
# Listings

A node is referred to by its kind and byte range. A listing shows a tree line by line, two blanks
deeper below each node: nodes by their reference, tokens by kind and quoted text. Blanks between
tokens are left out, comments are not.
-/

namespace LuaTypes

/-- A kind and a byte range. -/
def reference (kind : Kind) (start width : Nat) : String :=
  kind.tag ++ "@" ++ toString start ++ ".." ++ toString (start + width)

/-- The reference of a node. -/
def Node.reference (node : Node) : Reading String :=
  node.kind.map fun kind => LuaTypes.reference kind node.start node.width

namespace Tree

/-- The blanks before a line at this depth. -/
def indent (depth : Nat) : String := String.ofList (List.replicate (2 * depth) ' ')

mutual

/-- The lines of a tree that begins at byte `start`. -/
def lines (depth start : Nat) : Tree → Reading String
  | .node label content => do
    let kind ← label.kind
    let rest ← linesFrom (depth + 1) start content
    return indent depth ++ reference kind start (widthAll content) ++ "\n" ++ rest
  | .token .whitespace _ => return ""
  | .token kind text => return indent depth ++ kind.tag ++ " " ++ Text.quoted text ++ "\n"

/-- The lines of trees that stand side by side, the first at byte `start`. -/
def linesFrom (depth start : Nat) : List Tree → Reading String
  | [] => return ""
  | tree :: rest => do
    let first ← lines depth start tree
    let others ← linesFrom depth (start + tree.width) rest
    return first ++ others

end

/-- The listing of a tree. -/
def listing (tree : Tree) : Reading String := tree.lines 0 0

end Tree

end LuaTypes
