import LuaTypes.Text.Delimited
import LuaTypes.Tree.Node

/-!
# Reading expressions

An expression is a node of one of nine kinds. Its parts are found among its children by kind and
position: operands and keys are the first and second expression below it, operators and names are
tokens.

* `Form` names the nine forms, `Expr` is a node with its form;
* one namespace per form reads its parts: `Literal`, `Name`, `Paren`, `Unary`, `Binary`, `Call`,
  `Index`, `Closure`.
-/

namespace LuaTypes

/-- The forms of expression. -/
inductive Form where
  | literal | name | paren | unary | binary | call | index | closure | table
  deriving DecidableEq, Repr

/-- The kind of the nodes of a form. -/
def Form.kind : Form → Kind
  | .literal => .literal
  | .name => .nameExpr
  | .paren => .parenExpr
  | .unary => .unaryExpr
  | .binary => .binaryExpr
  | .call => .callExpr
  | .index => .indexExpr
  | .closure => .closureExpr
  | .table => .tableExpr

/-- The form of expression that a kind marks, if any. -/
def Kind.form? : Kind → Option Form
  | .literal => some .literal
  | .nameExpr => some .name
  | .parenExpr => some .paren
  | .unaryExpr => some .unary
  | .binaryExpr => some .binary
  | .callExpr => some .call
  | .indexExpr => some .index
  | .closureExpr => some .closure
  | .tableExpr => some .table
  | _ => none

theorem Kind.form?_eq_some_iff {kind : Kind} {form : Form} :
    kind.form? = some form ↔ kind = form.kind := by
  constructor
  · intro h
    cases kind <;> simp [Kind.form?] at h <;> subst h <;> rfl
  · rintro rfl
    cases form <;> rfl

/-- An expression: a node of one of the nine forms. -/
structure Expr where
  form : Form
  node : Node
  labelled : node.label = .known form.kind

namespace Expr

theorem ext_node {a b : Expr} (h : a.node = b.node) : a = b := by
  obtain ⟨f, n, hf⟩ := a
  obtain ⟨g, m, hg⟩ := b
  subst h
  have hfg : f.kind = g.kind := Label.known.inj (hf.symm.trans hg)
  have : some f = some g := by
    rw [← Kind.form?_eq_some_iff.2 rfl, ← Kind.form?_eq_some_iff.2 hfg]
  cases this
  rfl

/-- The source text of an expression, blanks included. -/
def text (e : Expr) : String := e.node.text

end Expr

namespace Node

/-- A node as an expression, if its kind marks one. -/
def expr? (node : Node) : Reading (Option Expr) :=
  match hlabel : node.label with
  | .foreign code => .error ⟨code⟩
  | .known kind =>
    match hform : kind.form? with
    | none => .ok none
    | some form => .ok (some ⟨form, node, by rw [hlabel, Kind.form?_eq_some_iff.1 hform]⟩)

/-- A node, if it has this kind. -/
def ofKind? (kind : Kind) (node : Node) : Reading (Option Node) :=
  node.kind.map fun k => if k = kind then some node else none

/-- The first child of a kind. -/
def childOfKind (node : Node) (kind : Kind) : Reading (Option Node) :=
  firstHit (ofKind? kind) node.children

/-- The children of a kind. -/
def childrenOfKind (node : Node) (kind : Kind) : Reading (List Node) :=
  hits (ofKind? kind) node.children

/-- The first expression directly below a node. -/
def firstExpr (node : Node) : Reading (Option Expr) := firstHit expr? node.children

/-- The second expression directly below a node. -/
def secondExpr (node : Node) : Reading (Option Expr) := hitAt expr? 1 node.children

/-- The expressions directly below a node. -/
def exprs (node : Node) : Reading (List Expr) := hits expr? node.children

theorem expr?_of_label {node : Node} {form : Form} (h : node.label = .known form.kind) :
    node.expr? = .ok (some ⟨form, node, h⟩) := by
  unfold expr?
  split
  · next hlabel => rw [hlabel] at h; cases h
  · next kind hlabel =>
    have hkind : kind = form.kind := Label.known.inj (hlabel.symm.trans h)
    split
    · next hform => rw [Kind.form?_eq_some_iff.2 hkind] at hform; cases hform
    · next form' hform =>
      rw [Kind.form?_eq_some_iff.2 hkind] at hform
      cases hform
      rfl

end Node

/-! ### Literals -/

/-- What a literal token says. -/
inductive LiteralSort where
  | nil
  | boolean (value : Bool)
  | number
  | string
  deriving DecidableEq, Repr

/-- The sort of literal that a token spells, if any. -/
def Kind.literalSort? : Kind → Option LiteralSort
  | .nilKw => some .nil
  | .trueKw => some (.boolean true)
  | .falseKw => some (.boolean false)
  | .number => some .number
  | .string => some .string
  | _ => none

namespace Literal

/-- The token of a literal: the first that is no blank or comment. -/
def token? (node : Node) : Option Token := node.tokens.find? (!·.kind.isSilent)

/-- What a literal says. -/
def kind? (node : Node) : Option LiteralSort := (token? node).bind (·.kind.literalSort?)

/-- The value of a string literal without its delimiters, escapes left as written. -/
def stringContent? (node : Node) : Option String :=
  match token? node with
  | some ⟨.string, text⟩ => Text.undelimited text
  | _ => none

end Literal

/-- The value of an expression that is a string literal. -/
def Expr.stringContent? (e : Expr) : Option String :=
  match e.form with
  | .literal => Literal.stringContent? e.node
  | _ => none

/-! ### Names, parentheses and operators -/

/-- The identifier of a name. -/
def Name.name? (node : Node) : Option String := (node.token? .ident).map (·.text)

/-- The expression between parentheses. -/
def Paren.inner (node : Node) : Reading (Option Expr) := node.firstExpr

namespace Unary

/-- The operator token. -/
def op? (node : Node) : Option Token := node.tokens.find? (·.kind.precedesOperand)

/-- The operand. -/
def operand (node : Node) : Reading (Option Expr) := node.firstExpr

end Unary

namespace Binary

/-- The operator token. -/
def op? (node : Node) : Option Token := node.tokens.find? (·.kind.joinsOperands)

/-- The left operand. -/
def lhs (node : Node) : Reading (Option Expr) := node.firstExpr

/-- The right operand. -/
def rhs (node : Node) : Reading (Option Expr) := node.secondExpr

end Binary

/-! ### Calls and member access -/

namespace Call

/-- The expression that is called. -/
def callee (node : Node) : Reading (Option Expr) := node.firstExpr

/-- The list of arguments. -/
def argList (node : Node) : Reading (Option Node) := node.childOfKind .argList

/-- The arguments, in order. -/
def args (node : Node) : Reading (List Expr) := do
  match ← argList node with
  | some list => list.exprs
  | none => return []

/-- The value of the first argument, if that is a string literal. -/
def stringArg (node : Node) : Reading (Option String) := do
  match ← argList node with
  | some list => return (← list.firstExpr).bind (·.stringContent?)
  | none => return none

end Call

namespace Index

/-- The expression whose member is read. -/
def base (node : Node) : Reading (Option Expr) := node.firstExpr

/-- The key in brackets. -/
def key (node : Node) : Reading (Option Expr) := node.secondExpr

/-- The name of the member: an identifier, or a string literal as the key. -/
def memberName (node : Node) : Reading (Option String) :=
  match node.token? .ident with
  | some ident => .ok (some ident.text)
  | none => (key node).map fun key? => key?.bind (·.stringContent?)

/-- Whether the member is read as a method. -/
def isMethodAccess (node : Node) : Bool := (node.token? .colon).isSome

end Index

/-- The parameters and statements of a function without a name. -/
def Closure.body (node : Node) : Reading (Option Node) := node.childOfKind .funcBody

end LuaTypes
