import LuaTypes.Proofs.Tree.Parts

/-!
# Abstract trees

What a program says, without its marks and blanks: an inductive type for each sort of phrase.
Building takes an abstract tree to a lossless one, constructor by constructor.

* `Ast.Term`, `Ast.Call`, `Ast.Stmt`: expressions, calls and statements; texts may be any;
* `Term.tree`, `Call.tree`, `Stmt.tree`: the trees that the constructors build of them;
* `Term.asRead`: what is left of an expression when it is read. The values of a table are not
  read, and a call without parentheses is read as one of a string literal.
-/

namespace LuaTypes.Ast

/-- An operator that stands before its operand. -/
structure UnaryOp where
  kind : Kind
  precedesOperand : kind.precedesOperand = true

/-- An operator that stands between its operands. -/
structure BinaryOp where
  kind : Kind
  joinsOperands : kind.joinsOperands = true

/-- A literal. A number or a string is spelled in any way. -/
inductive Literal where
  | nil
  | boolean (value : Bool)
  | number (text : String)
  | string (text : String)

mutual

/-- An expression. -/
inductive Term where
  | literal (value : Literal)
  | name (text : String)
  | paren (inner : Term)
  | unary (op : UnaryOp) (operand : Term)
  | binary (lhs : Term) (op : BinaryOp) (rhs : Term)
  | call (value : Call)
  | field (base : Term) (name : String)
  | method (base : Term) (name : String)
  | index (base key : Term)
  | closure (params : List String) (stmts : List Stmt)
  | table (values : List Term)

/-- A call, with arguments in parentheses or with one string and no parentheses. -/
inductive Call where
  | plain (callee : Term) (args : List Term)
  | string (callee : Term) (value : String)

/-- A statement. -/
inductive Stmt where
  | declare (names : List String) (values : List Term)
  | localFunction (name : String) (params : List String) (stmts : List Stmt)
  | function (target : Term) (params : List String) (stmts : List Stmt)
  | ret (values : List Term)
  | call (value : Call)

end

/-- A call of a method. -/
def Call.method (base : Term) (name : String) (args : List Term) : Call :=
  .plain (.method base name) args

/-! ### Building -/

namespace UnaryOp

theorem unary_eq_ok (op : UnaryOp) (operand : Tree) :
    ∃ tree, Build.unary op.kind operand = .ok tree := by
  simp [Build.unary, op.precedesOperand]

/-- The tree of an operator before its operand. -/
def tree (op : UnaryOp) (operand : Tree) : Tree :=
  (Build.unary op.kind operand).toOption.get (by
    obtain ⟨tree, htree⟩ := op.unary_eq_ok operand
    rw [htree]
    rfl)

theorem unary_eq (op : UnaryOp) (operand : Tree) :
    Build.unary op.kind operand = .ok (op.tree operand) := by
  obtain ⟨tree, htree⟩ := op.unary_eq_ok operand
  simp only [UnaryOp.tree, htree]
  rfl

end UnaryOp

namespace BinaryOp

theorem binary_eq_ok (op : BinaryOp) (lhs rhs : Tree) :
    ∃ tree, Build.binary lhs op.kind rhs = .ok tree := by
  simp [Build.binary, op.joinsOperands]

/-- The tree of an operator between its operands. -/
def tree (op : BinaryOp) (lhs rhs : Tree) : Tree :=
  (Build.binary lhs op.kind rhs).toOption.get (by
    obtain ⟨tree, htree⟩ := op.binary_eq_ok lhs rhs
    rw [htree]
    rfl)

theorem binary_eq (op : BinaryOp) (lhs rhs : Tree) :
    Build.binary lhs op.kind rhs = .ok (op.tree lhs rhs) := by
  obtain ⟨tree, htree⟩ := op.binary_eq_ok lhs rhs
  simp only [BinaryOp.tree, htree]
  rfl

end BinaryOp

/-- The tree of a literal. -/
def Literal.tree : Literal → Tree
  | .nil => Build.nil
  | .boolean value => Build.boolean value
  | .number text => Build.number text
  | .string text => Build.rawString text

mutual

/-- The tree of an expression. -/
def Term.tree : Term → Tree
  | .literal value => value.tree
  | .name text => Build.name text
  | .paren inner => Build.paren inner.tree
  | .unary op operand => op.tree operand.tree
  | .binary lhs op rhs => op.tree lhs.tree rhs.tree
  | .call value => value.tree
  | .field base name => Build.field base.tree name
  | .method base name => Build.method base.tree name
  | .index base key => Build.index base.tree key.tree
  | .closure params stmts => Build.closure params (treesOfStmts stmts)
  | .table values => Build.table (treesOfTerms values)
termination_by structural term => term

/-- The trees of expressions. -/
def treesOfTerms : List Term → List Tree
  | [] => []
  | term :: rest => term.tree :: treesOfTerms rest
termination_by structural terms => terms

/-- The tree of a call. -/
def Call.tree : Call → Tree
  | .plain callee args => Build.call callee.tree (treesOfTerms args)
  | .string callee value => Build.stringCall callee.tree value
termination_by structural call => call

/-- The tree of a statement. -/
def Stmt.tree : Stmt → Tree
  | .declare names values => Build.localStmt names (treesOfTerms values)
  | .localFunction name params stmts => Build.localFunction name params (treesOfStmts stmts)
  | .function target params stmts => Build.functionStmt target.tree params (treesOfStmts stmts)
  | .ret values => Build.returnStmt (treesOfTerms values)
  | .call value => Build.callStmt value.tree
termination_by structural stmt => stmt

/-- The trees of statements. -/
def treesOfStmts : List Stmt → List Tree
  | [] => []
  | stmt :: rest => stmt.tree :: treesOfStmts rest
termination_by structural stmts => stmts

end

theorem treesOfTerms_eq (terms : List Term) : treesOfTerms terms = terms.map Term.tree := by
  induction terms with
  | nil => rfl
  | cons term rest ih => rw [treesOfTerms, ih, List.map_cons]

theorem treesOfStmts_eq (stmts : List Stmt) : treesOfStmts stmts = stmts.map Stmt.tree := by
  induction stmts with
  | nil => rfl
  | cons stmt rest ih => rw [treesOfStmts, ih, List.map_cons]

/-! ### Reading leaves out -/

mutual

/-- An expression as it is read. -/
def Term.asRead : Term → Term
  | .literal value => .literal value
  | .name text => .name text
  | .paren inner => .paren inner.asRead
  | .unary op operand => .unary op operand.asRead
  | .binary lhs op rhs => .binary lhs.asRead op rhs.asRead
  | .call value => .call value.asRead
  | .field base name => .field base.asRead name
  | .method base name => .method base.asRead name
  | .index base key => .index base.asRead key.asRead
  | .closure params stmts => .closure params (stmtsAsRead stmts)
  | .table _ => .table []
termination_by structural term => term

/-- Expressions as they are read. -/
def termsAsRead : List Term → List Term
  | [] => []
  | term :: rest => term.asRead :: termsAsRead rest
termination_by structural terms => terms

/-- A call as it is read. -/
def Call.asRead : Call → Call
  | .plain callee args => .plain callee.asRead (termsAsRead args)
  | .string callee value => .plain callee.asRead [.literal (.string ("\"" ++ value ++ "\""))]
termination_by structural call => call

/-- A statement as it is read. -/
def Stmt.asRead : Stmt → Stmt
  | .declare names values => .declare names (termsAsRead values)
  | .localFunction name params stmts => .localFunction name params (stmtsAsRead stmts)
  | .function target params stmts => .function target.asRead params (stmtsAsRead stmts)
  | .ret values => .ret (termsAsRead values)
  | .call value => .call value.asRead
termination_by structural stmt => stmt

/-- Statements as they are read. -/
def stmtsAsRead : List Stmt → List Stmt
  | [] => []
  | stmt :: rest => stmt.asRead :: stmtsAsRead rest
termination_by structural stmts => stmts

end

theorem termsAsRead_eq (terms : List Term) : termsAsRead terms = terms.map Term.asRead := by
  induction terms with
  | nil => rfl
  | cons term rest ih => rw [termsAsRead, ih, List.map_cons]

theorem stmtsAsRead_eq (stmts : List Stmt) : stmtsAsRead stmts = stmts.map Stmt.asRead := by
  induction stmts with
  | nil => rfl
  | cons stmt rest ih => rw [stmtsAsRead, ih, List.map_cons]

/-! ### What is built -/

namespace UnaryOp

theorem tree_eq (op : UnaryOp) (operand : Tree) :
    op.tree operand = Build.node .unaryExpr (Build.spelled op.kind ::
      ((if op.kind = .notKw then [Build.blank] else []) ++ [operand])) := by
  have hbuilt := op.unary_eq operand
  rw [Build.unary, if_pos op.precedesOperand] at hbuilt
  exact (Except.ok.inj hbuilt).symm

end UnaryOp

theorem BinaryOp.tree_eq (op : BinaryOp) (lhs rhs : Tree) :
    op.tree lhs rhs = Build.node .binaryExpr
      [lhs, Build.blank, Build.spelled op.kind, Build.blank, rhs] := by
  have hbuilt := op.binary_eq lhs rhs
  rw [Build.binary, if_pos op.joinsOperands] at hbuilt
  exact (Except.ok.inj hbuilt).symm

theorem Call.isOfKind_tree (call : Call) : call.tree.isOfKind .callExpr = true := by
  cases call <;> rfl

/-- The form of an expression. -/
def Term.form : Term → Form
  | .literal _ => .literal
  | .name _ => .name
  | .paren _ => .paren
  | .unary .. => .unary
  | .binary .. => .binary
  | .call _ => .call
  | .field .. | .method .. | .index .. => .index
  | .closure .. => .closure
  | .table _ => .table

theorem Term.kind?_tree (term : Term) : term.tree.kind? = some term.form.kind := by
  cases term with
  | literal value => cases value <;> rfl
  | unary op operand => rw [Term.tree, UnaryOp.tree_eq]; rfl
  | binary lhs op rhs => rw [Term.tree, BinaryOp.tree_eq]; rfl
  | call value => cases value <;> rfl
  | _ => rfl

theorem Term.isExpr_tree (term : Term) : term.tree.isExpr = true :=
  Tree.isExpr_iff.2 ⟨_, term.kind?_tree⟩

theorem isExpr_treesOfTerms (terms : List Term) :
    ∀ tree ∈ treesOfTerms terms, tree.isExpr = true := by
  rw [treesOfTerms_eq]
  intro tree htree
  obtain ⟨term, -, rfl⟩ := List.mem_map.1 htree
  exact term.isExpr_tree

theorem Stmt.isStmt_tree (stmt : Stmt) : stmt.tree.isStmt = true := by
  cases stmt <;> rfl

theorem isStmt_treesOfStmts (stmts : List Stmt) :
    ∀ tree ∈ treesOfStmts stmts, tree.isStmt = true := by
  rw [treesOfStmts_eq]
  intro tree htree
  obtain ⟨stmt, -, rfl⟩ := List.mem_map.1 htree
  exact stmt.isStmt_tree

/-! ### Strings in abstract trees -/

/-- The value of a string literal. -/
def Term.stringContent? : Term → Option String
  | .literal (.string text) => Text.undelimited text
  | _ => none

/-- The name of the member that is read, if it has one. -/
def Term.memberName? : Term → Option String
  | .field _ text | .method _ text => some text
  | .index _ key => key.stringContent?
  | _ => none

/-- The value of the first argument, if that is a string. -/
def Call.stringArg? : Call → Option String
  | .plain _ args => args.head?.bind Term.stringContent?
  | .string _ value => some value

/-! ### Parts are smaller -/

section Sizes

variable {terms : List Term} {stmts : List Stmt}

theorem nodeCount_le_of_mem_terms {term : Term} (h : term ∈ terms) :
    term.tree.nodeCount ≤ Tree.nodeCountAll (treesOfTerms terms) := by
  rw [treesOfTerms_eq]
  exact Tree.nodeCount_le_all (List.mem_map_of_mem h)

theorem nodeCount_lt_block {stmt : Stmt} (h : stmt ∈ stmts) :
    stmt.tree.nodeCount < (Build.block (treesOfStmts stmts)).nodeCount := by
  rw [Tree.nodeCount_block, treesOfStmts_eq]
  exact Nat.lt_succ_of_le (Tree.nodeCount_le_all (List.mem_map_of_mem h))

/-- The statements of a function. -/
theorem nodeCount_lt_function (params : List String) {kind : Kind} {parts : List Tree}
    {stmt : Stmt} (hbody : Build.funcBody params (treesOfStmts stmts) ∈ parts) (h : stmt ∈ stmts) :
    stmt.tree.nodeCount < (Build.node kind parts).nodeCount :=
  calc stmt.tree.nodeCount
    _ < (Build.block (treesOfStmts stmts)).nodeCount := nodeCount_lt_block h
    _ < (Build.funcBody params (treesOfStmts stmts)).nodeCount :=
      Tree.nodeCount_lt_of_mem (by simp)
    _ < (Build.node kind parts).nodeCount := Tree.nodeCount_lt_of_mem hbody

theorem nodeCount_lt_call (callee : Tree) {term : Term} (h : term ∈ terms) :
    term.tree.nodeCount < (Build.call callee (treesOfTerms terms)).nodeCount := by
  have hle := nodeCount_le_of_mem_terms h
  simp only [Build.call, Build.argList, Tree.nodeCount_node, Tree.nodeCountAll_append,
    Tree.nodeCountAll_cons, Tree.nodeCountAll_withCommas]
  omega

/-- The expressions of a list that stands in a statement. -/
theorem nodeCount_lt_listed (kind : Kind) (front marks : List Tree) {term : Term}
    (h : term ∈ terms) :
    term.tree.nodeCount < (Build.node kind (front ++ if (treesOfTerms terms).isEmpty then []
      else marks ++ [Build.node .exprList (Build.withCommas (treesOfTerms terms))])).nodeCount := by
  have hle := nodeCount_le_of_mem_terms h
  have hne : (treesOfTerms terms).isEmpty = false := by
    cases terms with
    | nil => cases h
    | cons => rfl
  simp only [hne, Bool.false_eq_true, if_false, Tree.nodeCount_node, Tree.nodeCountAll_append,
    Tree.nodeCountAll_cons, Tree.nodeCountAll_withCommas]
  omega

end Sizes

end LuaTypes.Ast
