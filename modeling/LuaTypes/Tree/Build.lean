import LuaTypes.Tree.Basic

/-!
# Building trees

One constructor per form of expression and statement. Each takes finished parts, so trees are
built bottom-up, and puts single blanks between tokens, so that the text of the result reads like
source. Any tree may stand as a part. Only the two operator forms can fail: they refuse a token
that is not an operator of their sort.
-/

namespace LuaTypes.Build

/-- A tree refused because of its operator. -/
inductive OperatorError where
  | notUnary (kind : Kind)
  | notBinary (kind : Kind)
  deriving DecidableEq, Repr

/-- The wording of a refusal. -/
def OperatorError.message : OperatorError → String
  | .notUnary kind => kind.tag ++ " is not a unary operator"
  | .notBinary kind => kind.tag ++ " is not a binary operator"

/-- An inner node. -/
def node (kind : Kind) (children : List Tree) : Tree := .node (.known kind) children

/-- A keyword, operator or punctuation mark. -/
def spelled (kind : Kind) : Tree := .token kind (kind.spelling?.getD "")

/-- A single blank. -/
def blank : Tree := .token .whitespace " "

/-- A line break. -/
def newline : Tree := .token .whitespace "\n"

/-- Trees with separators between them. -/
def separated (separator : List Tree) : List Tree → List Tree
  | [] => []
  | [item] => [item]
  | item :: rest => item :: (separator ++ separated separator rest)

/-- Trees with a comma and a blank between them. -/
def withCommas (items : List Tree) : List Tree := separated [spelled .comma, blank] items

/-- A name in a declaring position. -/
def declaredName (text : String) : Tree := node .name [.token .ident text]

/-- Statements, each on a line of its own. -/
def block (stmts : List Tree) : Tree := node .block (separated [newline] stmts)

/-- Parameters, statements and the closing keyword of a function. -/
def funcBody (params : List String) (stmts : List Tree) : Tree :=
  node .funcBody
    [node .paramList
      (spelled .lParen :: (withCommas (params.map declaredName) ++ [spelled .rParen])),
      blank, block stmts, blank, spelled .endKw]

/-- Arguments in parentheses. -/
def argList (args : List Tree) : Tree :=
  node .argList (spelled .lParen :: (withCommas args ++ [spelled .rParen]))

/-! ### Literals -/

/-- A number, spelled as given. -/
def number (text : String) : Tree := node .literal [.token .number text]

/-- A string literal, delimiters included. -/
def rawString (text : String) : Tree := node .literal [.token .string text]

/-- A string literal in double quotes; the value is taken as it stands. -/
def string (value : String) : Tree := rawString ("\"" ++ value ++ "\"")

/-- A truth value. -/
def boolean (value : Bool) : Tree := node .literal [spelled (if value then .trueKw else .falseKw)]

/-- The absent value. -/
def nil : Tree := node .literal [spelled .nilKw]

/-! ### Expressions -/

/-- A name in use. -/
def name (text : String) : Tree := node .nameExpr [.token .ident text]

/-- An expression in parentheses. -/
def paren (inner : Tree) : Tree := node .parenExpr [spelled .lParen, inner, spelled .rParen]

/-- An operator before its operand. -/
def unary (op : Kind) (operand : Tree) : Except OperatorError Tree :=
  if op.precedesOperand then
    .ok (node .unaryExpr (spelled op :: ((if op = .notKw then [blank] else []) ++ [operand])))
  else .error (.notUnary op)

/-- An operator between its operands. -/
def binary (lhs : Tree) (op : Kind) (rhs : Tree) : Except OperatorError Tree :=
  if op.joinsOperands then .ok (node .binaryExpr [lhs, blank, spelled op, blank, rhs])
  else .error (.notBinary op)

/-- A call with arguments in parentheses. -/
def call (callee : Tree) (args : List Tree) : Tree := node .callExpr [callee, argList args]

/-- A call with one string literal and no parentheses. -/
def stringCall (callee : Tree) (value : String) : Tree :=
  node .callExpr [callee, blank, node .argList [string value]]

/-- A field of an object. -/
def field (base : Tree) (name : String) : Tree :=
  node .indexExpr [base, spelled .dot, .token .ident name]

/-- A method of an object. -/
def method (base : Tree) (name : String) : Tree :=
  node .indexExpr [base, spelled .colon, .token .ident name]

/-- The value under a key in brackets. -/
def index (base key : Tree) : Tree :=
  node .indexExpr [base, spelled .lBracket, key, spelled .rBracket]

/-- A call of a method. -/
def methodCall (base : Tree) (name : String) (args : List Tree) : Tree :=
  call (method base name) args

/-- A function without a name. -/
def closure (params : List String) (stmts : List Tree) : Tree :=
  node .closureExpr [spelled .functionKw, funcBody params stmts]

/-- A table with positional values. -/
def table (values : List Tree) : Tree :=
  node .tableExpr (spelled .lBrace :: (withCommas values ++ [spelled .rBrace]))

/-! ### Statements -/

/-- Names declared in a block, with their initializers if there are any. -/
def localStmt (names : List String) (exprs : List Tree) : Tree :=
  node .localStmt
    ([spelled .localKw, blank, node .nameList (withCommas (names.map declaredName))] ++
      if exprs.isEmpty then []
      else [blank, spelled .eq, blank, node .exprList (withCommas exprs)])

/-- A function declared in a block. -/
def localFunction (name : String) (params : List String) (stmts : List Tree) : Tree :=
  node .localFuncStmt
    [spelled .localKw, blank, spelled .functionKw, blank, declaredName name, funcBody params stmts]

/-- A function declared under a name or a field path. -/
def functionStmt (target : Tree) (params : List String) (stmts : List Tree) : Tree :=
  node .funcStmt [spelled .functionKw, blank, target, funcBody params stmts]

/-- A return with its values, if there are any. -/
def returnStmt (exprs : List Tree) : Tree :=
  node .returnStmt
    (spelled .returnKw ::
      if exprs.isEmpty then [] else [blank, node .exprList (withCommas exprs)])

/-- A call standing as a statement. -/
def callStmt (call : Tree) : Tree := node .callStmt [call]

/-- A whole file. -/
def sourceFile (stmts : List Tree) : Tree := node .sourceFile [block stmts]

end LuaTypes.Build
