import LuaTypes.Tree.Expression

/-!
# Reading statements and function bodies

Statements, files and function bodies are read like expressions: parts are found among the children
by kind. A return belongs to the nearest function body above it, so a body does not own the returns
of the functions written inside it (`Body.returns`).
-/

namespace LuaTypes

/-- Whether nodes of this kind are statements. -/
def Kind.isStmt : Kind → Bool
  | .localStmt | .localFuncStmt | .funcStmt | .returnStmt | .callStmt => true
  | _ => false

namespace Node

/-- A node, if it is a statement. -/
def stmt? (node : Node) : Reading (Option Node) :=
  node.kind.map fun kind => if kind.isStmt then some node else none

/-- The expressions in the first expression list below a node. -/
def listedExprs (node : Node) : Reading (List Expr) := do
  match ← node.childOfKind .exprList with
  | some list => list.exprs
  | none => return []

/-- The first function body directly below a node. -/
def body (node : Node) : Reading (Option Node) := node.childOfKind .funcBody

end Node

/-- The statements of a block. -/
def Block.stmts (node : Node) : Reading (List Node) := hits Node.stmt? node.children

/-- The names in a list of declared names. -/
def NameList.names (node : Node) : Reading (List Node) := node.childrenOfKind .name

namespace LocalStmt

/-- The declared names. -/
def names (node : Node) : Reading (List Node) := do
  match ← node.childOfKind .nameList with
  | some list => NameList.names list
  | none => return []

/-- The expressions that the names begin with. -/
def exprs (node : Node) : Reading (List Expr) := node.listedExprs

/-- The expression that the declared name with this index begins with. -/
def initializer (node : Node) (index : Nat) : Reading (Option Expr) :=
  (exprs node).map (·[index]?)

end LocalStmt

/-- The declared name of a function declared in a block. -/
def LocalFunction.name (node : Node) : Reading (Option Node) := node.childOfKind .name

/-- The name or field path under which a function is declared. -/
def FunctionStmt.target (node : Node) : Reading (Option Expr) := node.firstExpr

namespace ReturnStmt

/-- The returned expressions. -/
def exprs (node : Node) : Reading (List Expr) := node.listedExprs

/-- The first returned expression, which is all that a single value can hold. -/
def first (node : Node) : Reading (Option Expr) := (exprs node).map (·.head?)

end ReturnStmt

/-- The call that stands as a statement. -/
def CallStmt.call (node : Node) : Reading (Option Node) := node.childOfKind .callExpr

namespace SourceFile

/-- The statements of a file. -/
def block (node : Node) : Reading (Option Node) := node.childOfKind .block

/-- The return of a file, which is what requiring it yields. -/
def returnStmt (node : Node) : Reading (Option Node) := do
  match ← block node with
  | some block => block.childOfKind .returnStmt
  | none => return none

/-- The first expression that a file returns. -/
def firstReturned (node : Node) : Reading (Option Expr) := do
  match ← returnStmt node with
  | some ret => ReturnStmt.first ret
  | none => return none

end SourceFile

namespace Body

/-- The list of parameters. -/
def paramList (node : Node) : Reading (Option Node) := node.childOfKind .paramList

/-- The declared parameters. -/
def params (node : Node) : Reading (List Node) := do
  match ← paramList node with
  | some list => list.childrenOfKind .name
  | none => return []

/-- The statements of a body. -/
def block (node : Node) : Reading (Option Node) := node.childOfKind .block

/-- The nearest function body at or above a node. -/
def owner (node : Node) : Reading (Option Node) :=
  firstHit (Node.ofKind? .funcBody) node.ancestors

/-- A node, if it is a return that belongs to this body. -/
def ownReturn? (body node : Node) : Reading (Option Node) := do
  match ← node.ofKind? .returnStmt with
  | none => return none
  | some ret =>
    return if (← owner ret).map (·.place) = some body.place then some ret else none

/-- The returns that belong to a body, in order. -/
def returns (body : Node) : Reading (List Node) := hits (ownReturn? body) body.preorder

end Body

end LuaTypes
