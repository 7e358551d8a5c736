import LuaTypes.Proofs.Ast.Basic

/-!
# Reading back what was built

The readings of expressions and statements are enough to recover the abstract tree that a lossless
tree was built from, at whatever place the tree stands: nothing else is looked at.

* `Ast.readTerm`, `Ast.readCall`, `Ast.readBody`, `Ast.readStmt`: one step of reading, given how
  parts are read; `Ast.termWithin`, `Ast.stmtWithin`: reading trees of a limited number of nodes;
* `Ast.readTerm_eq`, `Ast.readStmt_eq`: one step recovers what was built, if the parts are
  recovered;
* `Ast.recovers_within`: whatever is small enough is recovered;
* `Ast.round_trip`: expressions, statements and files are recovered.
-/

namespace LuaTypes.Ast

/-! ### Reading -/

section Step

/-- The part that a reading gives. -/
def part {α : Type} (reading : Reading (Option α)) : Option α := reading.toOption.join

/-- The parts that a reading gives. -/
def parts {α : Type} (reading : Reading (List α)) : Option (List α) := reading.toOption

/-- A literal is read off its token. -/
def readLiteral (node : Node) : Option Literal := do
  let token ← Literal.token? node
  match ← Literal.kind? node with
  | .nil => return .nil
  | .boolean value => return .boolean value
  | .number => return .number token.text
  | .string => return .string token.text

variable (readOperand : Expr → Option Term) (readLine : Node → Option Stmt)

/-- An operator and its operand. -/
def readUnary (node : Node) : Option Term := do
  let op ← Unary.op? node
  let operand ← readOperand (← part (Unary.operand node))
  if hop : op.kind.precedesOperand then return .unary ⟨op.kind, hop⟩ operand else none

/-- An operator and its operands. -/
def readBinary (node : Node) : Option Term := do
  let op ← Binary.op? node
  let lhs ← readOperand (← part (Binary.lhs node))
  let rhs ← readOperand (← part (Binary.rhs node))
  if hop : op.kind.joinsOperands then return .binary lhs ⟨op.kind, hop⟩ rhs else none

/-- A callee and its arguments. -/
def readCall (node : Node) : Option Call := do
  let callee ← readOperand (← part (Call.callee node))
  let args ← parts (Call.args node)
  return .plain callee (← args.mapM readOperand)

/-- An object and the key or the name of its member. -/
def readIndex (node : Node) : Option Term := do
  let base ← readOperand (← part (Index.base node))
  match part (Index.key node) with
  | some key => return .index base (← readOperand key)
  | none =>
    let name ← part (Index.memberName node)
    return if Index.isMethodAccess node then .method base name else .field base name

/-- The statements of a block. -/
def readBlock (block : Node) : Option (List Stmt) := do
  let stmts ← parts (Block.stmts block)
  stmts.mapM readLine

/-- The parameters and statements of a function. -/
def readBody (body : Node) : Option (List String × List Stmt) := do
  let params ← parts (Body.params body)
  let stmts ← readBlock readLine (← part (Body.block body))
  return (← params.mapM Name.name?, stmts)

/-- An expression, given how its operands and the statements in it are read. -/
def readTerm (e : Expr) : Option Term :=
  match e.form with
  | .literal => (readLiteral e.node).map .literal
  | .name => (Name.name? e.node).map .name
  | .paren => do return .paren (← readOperand (← part (Paren.inner e.node)))
  | .unary => readUnary readOperand e.node
  | .binary => readBinary readOperand e.node
  | .call => (readCall readOperand e.node).map .call
  | .index => readIndex readOperand e.node
  | .closure => do
    let (params, stmts) ← readBody readLine (← part (Closure.body e.node))
    return .closure params stmts
  | .table => return .table []

/-- A statement, given how its expressions and the statements in it are read. -/
def readStmt (node : Node) : Option Stmt :=
  match node.kind with
  | .ok .localStmt => do
    let names ← parts (LocalStmt.names node)
    let values ← parts (LocalStmt.exprs node)
    return .declare (← names.mapM Name.name?) (← values.mapM readOperand)
  | .ok .localFuncStmt => do
    let name ← Name.name? (← part (LocalFunction.name node))
    let (params, stmts) ← readBody readLine (← part node.body)
    return .localFunction name params stmts
  | .ok .funcStmt => do
    let target ← readOperand (← part (FunctionStmt.target node))
    let (params, stmts) ← readBody readLine (← part node.body)
    return .function target params stmts
  | .ok .returnStmt => do
    let values ← parts (ReturnStmt.exprs node)
    return .ret (← values.mapM readOperand)
  | .ok .callStmt => do
    return .call (← readCall readOperand (← part (CallStmt.call node)))
  | _ => none

end Step

mutual

/-- An expression whose tree has no more than a number of nodes. -/
def termWithin : Nat → Expr → Option Term
  | 0, _ => none
  | budget + 1, e => readTerm (termWithin budget) (stmtWithin budget) e
termination_by structural budget => budget

/-- A statement whose tree has no more than a number of nodes. -/
def stmtWithin : Nat → Node → Option Stmt
  | 0, _ => none
  | budget + 1, node => readStmt (termWithin budget) (stmtWithin budget) node
termination_by structural budget => budget

end

/-- The abstract tree of an expression. -/
def termOf (e : Expr) : Option Term := termWithin e.tree.nodeCount e

/-- The abstract tree of a statement. -/
def stmtOf (node : Node) : Option Stmt := stmtWithin node.tree.nodeCount node

/-- The abstract trees of the statements of a file. -/
def stmtsOf (file : Node) : Option (List Stmt) := do
  readBlock stmtOf (← part (SourceFile.block file))

/-! ### One step -/

/-- A way of reading recovers an expression wherever its tree stands. -/
def Recovers (read : Expr → Option Term) (term : Term) : Prop :=
  ∀ e : Expr, e.tree = term.tree → read e = some term.asRead

/-- A way of reading recovers a statement wherever its tree stands. -/
def RecoversStmt (read : Node → Option Stmt) (stmt : Stmt) : Prop :=
  ∀ node : Node, node.tree = stmt.tree → read node = some stmt.asRead

theorem mapM_eq_some {α β γ : Type} {read : α → Option β} {treeOf : α → Tree} {tree : γ → Tree}
    {result : γ → β} {items : List γ} {as : List α} (h : as.map treeOf = items.map tree)
    (hread : ∀ item ∈ items, ∀ a, treeOf a = tree item → read a = some (result item)) :
    as.mapM read = some (items.map result) := by
  induction items generalizing as with
  | nil =>
    rw [List.map_eq_nil_iff.1 h]
    rfl
  | cons item rest ih =>
    obtain ⟨a, as, rfl, ha, has⟩ := List.map_eq_cons_iff.1 h
    obtain ⟨hitem, hrest⟩ := List.forall_mem_cons.1 hread
    rw [List.mapM_cons, hitem a ha, ih has hrest]
    rfl

@[simp] theorem part_ok {α : Type} (found : Option α) : part (.ok found) = found := rfl

theorem part_of_gives {α : Type} {treeOf : α → Tree} {reading : Reading (Option α)} {tree : Tree}
    (h : GivesPart treeOf reading tree) : ∃ a, part reading = some a ∧ treeOf a = tree := by
  obtain ⟨a, rfl, ha⟩ := h
  exact ⟨a, rfl, ha⟩

theorem parts_of_gives {α : Type} {treeOf : α → Tree} {reading : Reading (List α)}
    {trees : List Tree} (h : GivesParts treeOf reading trees) :
    ∃ as, parts reading = some as ∧ as.map treeOf = trees := by
  obtain ⟨as, rfl, has⟩ := h
  exact ⟨as, rfl, has⟩

theorem mapM_names {names : List String} {nodes : List Node}
    (h : nodes.map Node.tree = names.map Build.declaredName) :
    nodes.mapM Name.name? = some names := by
  have hread : nodes.mapM Name.name? = some (names.map id) :=
    mapM_eq_some h fun name _ node hnode => Name.name?_of_tree hnode
  simpa using hread

section Step

variable {readOperand : Expr → Option Term} {readLine : Node → Option Stmt}

theorem readLiteral_of_token {node : Node} {kind : Kind} {text : String}
    (h : node.tree = Build.node .literal [.token kind text]) (hkind : kind.isSilent = false) :
    readLiteral node = kind.literalSort?.map fun
      | .nil => .nil
      | .boolean value => .boolean value
      | .number => .number text
      | .string => .string text := by
  have htoken := Literal.token?_of_tree h hkind
  simp only [readLiteral, Literal.kind?, htoken, Option.bind_eq_bind, Option.bind_some]
  cases kind.literalSort? with
  | none => rfl
  | some sort => cases sort <;> rfl

theorem readLiteral_eq {node : Node} (value : Literal) (h : node.tree = value.tree) :
    readLiteral node = some value := by
  cases value with
  | nil => exact readLiteral_of_token h rfl
  | boolean value => cases value <;> exact readLiteral_of_token h rfl
  | number text => exact readLiteral_of_token h rfl
  | string text => exact readLiteral_of_token h rfl

theorem readUnary_eq {node : Node} (op : UnaryOp) {operand : Term}
    (hoperand : Recovers readOperand operand) (h : node.tree = op.tree operand.tree) :
    readUnary readOperand node = some (.unary op operand.asRead) := by
  have hbuilt := op.unary_eq operand.tree
  obtain ⟨⟨kind, text⟩, htoken, rfl⟩ := Option.map_eq_some_iff.1 (Unary.op?_of_tree hbuilt h)
  obtain ⟨e, he, htree⟩ := part_of_gives (Unary.operand_of_tree hbuilt h operand.isExpr_tree)
  simp [readUnary, htoken, he, hoperand e htree, op.precedesOperand]

theorem readBinary_eq {node : Node} (op : BinaryOp) {lhs rhs : Term}
    (hlhs : Recovers readOperand lhs) (hrhs : Recovers readOperand rhs)
    (h : node.tree = op.tree lhs.tree rhs.tree) :
    readBinary readOperand node = some (.binary lhs.asRead op rhs.asRead) := by
  have hbuilt := op.binary_eq lhs.tree rhs.tree
  obtain ⟨⟨kind, text⟩, htoken, rfl⟩ :=
    Option.map_eq_some_iff.1 (Binary.op?_of_tree hbuilt h lhs.isExpr_tree)
  obtain ⟨hl, hr⟩ := Binary.operands_of_tree hbuilt h lhs.isExpr_tree rhs.isExpr_tree
  obtain ⟨l, hl, hltree⟩ := part_of_gives hl
  obtain ⟨r, hr, hrtree⟩ := part_of_gives hr
  simp [readBinary, htoken, hl, hr, hlhs l hltree, hrhs r hrtree, op.joinsOperands]

theorem readCall_eq {node : Node} {callee : Term} {args : List Term}
    (hcallee : Recovers readOperand callee) (hargs : ∀ arg ∈ args, Recovers readOperand arg)
    (h : GivesPart Expr.tree (LuaTypes.Call.callee node) callee.tree ∧
      GivesParts Expr.tree (LuaTypes.Call.args node) (args.map Term.tree)) :
    readCall readOperand node = some (.plain callee.asRead (args.map Term.asRead)) := by
  obtain ⟨e, he, htree⟩ := part_of_gives h.1
  obtain ⟨es, hes, htrees⟩ := parts_of_gives h.2
  have hargs := mapM_eq_some htrees hargs
  simp [readCall, he, hes, hcallee e htree, hargs]

theorem readIndex_eq_key {node : Node} {base key : Term} (hbase : Recovers readOperand base)
    (hkey : Recovers readOperand key) (h : node.tree = Build.index base.tree key.tree) :
    readIndex readOperand node = some (.index base.asRead key.asRead) := by
  obtain ⟨hb, hk⟩ := Index.parts_of_index h base.isExpr_tree key.isExpr_tree
  obtain ⟨b, hb, hbtree⟩ := part_of_gives hb
  obtain ⟨k, hk, hktree⟩ := part_of_gives hk
  simp [readIndex, hb, hk, hbase b hbtree, hkey k hktree]

theorem readIndex_eq_name {node : Node} {base : Term} {name : String} {isMethod : Bool}
    (hbase : Recovers readOperand base)
    (h : GivesPart Expr.tree (Index.base node) base.tree ∧ Index.key node = .ok none ∧
      Index.memberName node = .ok (some name) ∧ Index.isMethodAccess node = isMethod) :
    readIndex readOperand node =
      some (if isMethod then .method base.asRead name else .field base.asRead name) := by
  obtain ⟨hb, hkey, hname, hmethod⟩ := h
  obtain ⟨b, hb, htree⟩ := part_of_gives hb
  simp [readIndex, hb, hkey, hname, hmethod, hbase b htree]

theorem readBlock_eq {node : Node} {stmts : List Stmt}
    (hstmts : ∀ stmt ∈ stmts, RecoversStmt readLine stmt)
    (h : node.tree = Build.block (treesOfStmts stmts)) :
    readBlock readLine node = some (stmtsAsRead stmts) := by
  obtain ⟨nodes, hnodes, htrees⟩ :=
    parts_of_gives (Block.stmts_of_tree h (isStmt_treesOfStmts stmts))
  rw [treesOfStmts_eq] at htrees
  have hread := mapM_eq_some htrees hstmts
  simp [readBlock, hnodes, hread, stmtsAsRead_eq]

theorem readBody_eq {node : Node} {params : List String} {stmts : List Stmt}
    (hstmts : ∀ stmt ∈ stmts, RecoversStmt readLine stmt)
    (h : node.tree = Build.funcBody params (treesOfStmts stmts)) :
    readBody readLine node = some (params, stmtsAsRead stmts) := by
  obtain ⟨hparams, hblock⟩ := Body.parts_of_tree h
  obtain ⟨names, hnames, htrees⟩ := parts_of_gives hparams
  obtain ⟨block, hblock, htree⟩ := part_of_gives hblock
  simp [readBody, hnames, hblock, readBlock_eq hstmts htree, mapM_names htrees]

theorem form_of_tree {e : Expr} {term : Term} (h : e.tree = term.tree) : e.form = term.form :=
  Expr.form_of_kind? (h ▸ term.kind?_tree)

/-- One step recovers a call, if the smaller expressions in it are recovered. -/
theorem readCall_of_tree {node : Node} {call : Call}
    (hoperand : ∀ part : Term, part.tree.nodeCount < call.tree.nodeCount →
      Recovers readOperand part)
    (h : node.tree = call.tree) : readCall readOperand node = some call.asRead := by
  cases call with
  | plain callee args =>
    have hargs : ∀ arg ∈ args, Recovers readOperand arg := fun arg harg =>
      hoperand arg (nodeCount_lt_call callee.tree harg)
    have hfound := Call.args_of_call h callee.isExpr_tree (isExpr_treesOfTerms args)
    rw [treesOfTerms_eq] at hfound
    rw [Call.asRead, termsAsRead_eq]
    exact readCall_eq (hoperand callee (Tree.nodeCount_lt_of_mem (by simp))) hargs
      ⟨Call.callee_of_call h callee.isExpr_tree, hfound⟩
  | string callee value =>
    have hvalue : Recovers readOperand (.literal (.string ("\"" ++ value ++ "\""))) := by
      refine hoperand _ ?_
      simp only [Call.tree, Build.stringCall, Build.string, Term.tree, Literal.tree,
        Tree.nodeCount_node, Tree.nodeCountAll_cons]
      omega
    exact readCall_eq (hoperand callee (Tree.nodeCount_lt_of_mem (by simp)))
      (List.forall_mem_singleton.2 hvalue) (Call.parts_of_stringCall h callee.isExpr_tree)

/-- One step recovers an expression, if the smaller ones in it are recovered. -/
theorem readTerm_eq {term : Term}
    (hoperand : ∀ part : Term, part.tree.nodeCount < term.tree.nodeCount →
      Recovers readOperand part)
    (hline : ∀ stmt : Stmt, stmt.tree.nodeCount < term.tree.nodeCount →
      RecoversStmt readLine stmt) : Recovers (readTerm readOperand readLine) term := by
  intro e h
  have hform := form_of_tree h
  unfold readTerm
  rw [hform]
  cases term with
  | literal value => exact congrArg (Option.map Term.literal) (readLiteral_eq value h)
  | name text => exact congrArg (Option.map Term.name) (Name.name?_of_tree h)
  | paren inner =>
    have hinner := hoperand inner (Tree.nodeCount_lt_of_mem (by simp))
    obtain ⟨i, hi, htree⟩ := part_of_gives (Paren.inner_of_tree h inner.isExpr_tree)
    simp [Term.form, hi, hinner i htree, Term.asRead]
  | unary op operand =>
    refine readUnary_eq op (hoperand operand ?_) h
    rw [Term.tree, UnaryOp.tree_eq]
    exact Tree.nodeCount_lt_of_mem (by simp)
  | binary lhs op rhs =>
    refine readBinary_eq op (hoperand lhs ?_) (hoperand rhs ?_) h
    · rw [Term.tree, BinaryOp.tree_eq]
      exact Tree.nodeCount_lt_of_mem (by simp)
    · rw [Term.tree, BinaryOp.tree_eq]
      exact Tree.nodeCount_lt_of_mem (by simp)
  | call value => exact congrArg (Option.map Term.call) (readCall_of_tree hoperand h)
  | field base name =>
    exact readIndex_eq_name (hoperand base (Tree.nodeCount_lt_of_mem (by simp)))
      (Index.parts_of_field h base.isExpr_tree)
  | method base name =>
    exact readIndex_eq_name (hoperand base (Tree.nodeCount_lt_of_mem (by simp)))
      (Index.parts_of_method h base.isExpr_tree)
  | index base key =>
    exact readIndex_eq_key (hoperand base (Tree.nodeCount_lt_of_mem (by simp)))
      (hoperand key (Tree.nodeCount_lt_of_mem (by simp))) h
  | closure params stmts =>
    have hstmts : ∀ stmt ∈ stmts, RecoversStmt readLine stmt := fun stmt hstmt =>
      hline stmt (nodeCount_lt_function params (by simp) hstmt)
    obtain ⟨body, hbody, htree⟩ := part_of_gives (Closure.body_of_tree h)
    simp [Term.form, hbody, readBody_eq hstmts htree, Term.asRead]
  | table values => rfl

/-- One step recovers a statement, if the smaller expressions and statements in it are. -/
theorem readStmt_eq {stmt : Stmt}
    (hoperand : ∀ part : Term, part.tree.nodeCount < stmt.tree.nodeCount →
      Recovers readOperand part)
    (hline : ∀ part : Stmt, part.tree.nodeCount < stmt.tree.nodeCount →
      RecoversStmt readLine part) : RecoversStmt (readStmt readOperand readLine) stmt := by
  intro node h
  cases stmt with
  | declare names values =>
    have hvalues : ∀ value ∈ values, Recovers readOperand value := fun value hvalue =>
      hoperand value (nodeCount_lt_listed .localStmt _ [_, _, _] hvalue)
    obtain ⟨hnames, hexprs⟩ := LocalStmt.parts_of_tree h (isExpr_treesOfTerms values)
    obtain ⟨nodes, hnodes, hntrees⟩ := parts_of_gives hnames
    obtain ⟨es, hes, htrees⟩ := parts_of_gives hexprs
    rw [treesOfTerms_eq] at htrees
    simp [readStmt, Node.kind_of_tree h, hnodes, hes, mapM_names hntrees,
      mapM_eq_some htrees hvalues, Stmt.asRead, termsAsRead_eq]
  | localFunction name params stmts =>
    have hstmts : ∀ line ∈ stmts, RecoversStmt readLine line := fun line hmem =>
      hline line (nodeCount_lt_function params (by simp) hmem)
    obtain ⟨hname, hbody⟩ := LocalFunction.parts_of_tree h
    obtain ⟨nameNode, hnameNode, hntree⟩ := part_of_gives hname
    obtain ⟨body, hbody, htree⟩ := part_of_gives hbody
    simp [readStmt, Node.kind_of_tree h, hnameNode, hbody, Name.name?_of_tree hntree,
      readBody_eq hstmts htree, Stmt.asRead]
  | function target params stmts =>
    have hstmts : ∀ line ∈ stmts, RecoversStmt readLine line := fun line hmem =>
      hline line (nodeCount_lt_function params (by simp) hmem)
    have htarget := hoperand target (Tree.nodeCount_lt_of_mem (by simp))
    obtain ⟨hfound, hbody⟩ := FunctionStmt.parts_of_tree h target.isExpr_tree
    obtain ⟨e, he, hetree⟩ := part_of_gives hfound
    obtain ⟨body, hbody, htree⟩ := part_of_gives hbody
    simp [readStmt, Node.kind_of_tree h, he, hbody, htarget e hetree, readBody_eq hstmts htree,
      Stmt.asRead]
  | ret values =>
    have hvalues : ∀ value ∈ values, Recovers readOperand value := fun value hvalue =>
      hoperand value (nodeCount_lt_listed .returnStmt [_] [_] hvalue)
    obtain ⟨es, hes, htrees⟩ :=
      parts_of_gives (ReturnStmt.exprs_of_tree h (isExpr_treesOfTerms values))
    rw [treesOfTerms_eq] at htrees
    simp [readStmt, Node.kind_of_tree h, hes, mapM_eq_some htrees hvalues, Stmt.asRead,
      termsAsRead_eq]
  | call value =>
    obtain ⟨call, hcall, htree⟩ := part_of_gives (CallStmt.call_of_tree h value.isOfKind_tree)
    have hvalue := readCall_of_tree (fun part hpart => hoperand part
      (Nat.lt_trans hpart (Tree.nodeCount_lt_of_mem (by simp)))) htree
    simp [readStmt, Node.kind_of_tree h, hcall, hvalue, Stmt.asRead]

end Step

/-! ### Strings -/

/-- Quotes around a value are taken off again. -/
theorem undelimited_quoted (value : String) :
    Text.undelimited ("\"" ++ value ++ "\"") = some value := by
  simp [Text.undelimited, Text.undelimit, Text.beforeQuote]

theorem stringContent?_of_token {node : Node} {kind : Kind} {text : String}
    (h : node.tree = Build.node .literal [.token kind text]) (hkind : kind.isSilent = false) :
    Literal.stringContent? node = if kind = .string then Text.undelimited text else none := by
  rw [Literal.stringContent?, Literal.token?_of_tree h hkind]
  split
  · next heq =>
    cases heq
    rfl
  · next hne =>
    rw [if_neg]
    rintro rfl
    exact hne text rfl

theorem stringContent?_of_tree {e : Expr} {term : Term} (h : e.tree = term.tree) :
    e.stringContent? = term.stringContent? := by
  unfold Expr.stringContent?
  rw [form_of_tree h]
  cases term with
  | literal value =>
    cases value with
    | nil => exact stringContent?_of_token h rfl
    | boolean value => cases value <;> exact stringContent?_of_token h rfl
    | number text => exact stringContent?_of_token h rfl
    | string text => exact stringContent?_of_token h rfl
  | _ => rfl

theorem memberName_of_tree {node : Node} {term : Term} (h : node.tree = term.tree)
    (hform : term.form = .index) : Index.memberName node = .ok term.memberName? := by
  cases term with
  | field base text => exact (Index.parts_of_field h base.isExpr_tree).2.2.1
  | method base text => exact (Index.parts_of_method h base.isExpr_tree).2.2.1
  | index base key =>
    obtain ⟨e, -, htree, hname⟩ := Index.memberName_of_index h base.isExpr_tree key.isExpr_tree
    rw [hname, stringContent?_of_tree htree]
    rfl
  | _ => cases hform

theorem stringArg_of_tree {node : Node} {call : Call} (h : node.tree = call.tree) :
    LuaTypes.Call.stringArg node = .ok call.stringArg? := by
  cases call with
  | plain callee args =>
    obtain ⟨es, hes, htrees⟩ :=
      Call.args_of_call h callee.isExpr_tree (isExpr_treesOfTerms args)
    rw [Call.stringArg_of_args hes]
    cases args with
    | nil =>
      rw [List.map_eq_nil_iff.1 htrees]
      rfl
    | cons arg rest =>
      obtain ⟨e, es, rfl, he, -⟩ := List.map_eq_cons_iff.1 htrees
      exact congrArg Except.ok (stringContent?_of_tree he)
  | string callee value =>
    obtain ⟨es, hes, htrees⟩ := (Call.parts_of_stringCall h callee.isExpr_tree).2
    rw [Call.stringArg_of_args hes]
    obtain ⟨e, es, rfl, he, -⟩ := List.map_eq_cons_iff.1 htrees
    have hvalue : e.tree = (Term.literal (.string ("\"" ++ value ++ "\""))).tree := he
    refine congrArg Except.ok ((stringContent?_of_tree hvalue).trans ?_)
    exact undelimited_quoted value

/-! ### Recovery -/

/-- Whatever is small enough is recovered: expressions and statements, which occur in each other, by
one induction on their size. -/
theorem recovers_within (budget : Nat) :
    (∀ term : Term, term.tree.nodeCount ≤ budget → Recovers (termWithin budget) term) ∧
      ∀ stmt : Stmt, stmt.tree.nodeCount ≤ budget → RecoversStmt (stmtWithin budget) stmt := by
  induction budget with
  | zero =>
    constructor
    · intro term h
      have hpos := Tree.nodeCount_pos (Tree.isNode_of_isExpr term.isExpr_tree)
      omega
    · intro stmt h
      have hpos := Tree.nodeCount_pos (Tree.isNode_of_isStmt stmt.isStmt_tree)
      omega
  | succ budget ih =>
    constructor
    · intro term h
      exact readTerm_eq (fun part hpart => ih.1 part (by omega))
        fun stmt hstmt => ih.2 stmt (by omega)
    · intro stmt h
      exact readStmt_eq (fun part hpart => ih.1 part (by omega))
        fun part hpart => ih.2 part (by omega)

theorem recovers_termOf (term : Term) : Recovers termOf term := fun e h =>
  (recovers_within _).1 term (Nat.le_of_eq (by rw [h])) e h

theorem recovers_stmtOf (stmt : Stmt) : RecoversStmt stmtOf stmt := fun node h =>
  (recovers_within _).2 stmt (Nat.le_of_eq (by rw [h])) node h

theorem recovers_stmtsOf {stmts : List Stmt} {node : Node}
    (h : node.tree = Build.sourceFile (treesOfStmts stmts)) :
    stmtsOf node = some (stmtsAsRead stmts) := by
  obtain ⟨block, hblock, htree⟩ := part_of_gives (SourceFile.block_of_tree h)
  have hread := readBlock_eq (fun stmt _ => recovers_stmtOf stmt) htree
  simp [stmtsOf, hblock, hread]

/-- What was built is recovered by the readings of expressions and statements alone, wherever it
stands: a node with the tree of an expression is an expression, and the expression is read back as
it was, but for the values of tables and for calls without parentheses, which are read as calls of a
string literal; likewise statements, and the statements of a file. The values of string literals and
string arguments and the names of members are those of the abstract tree. All operators of the right
sort are built, and calls of methods are calls of methods that are read as members. -/
theorem round_trip :
    (∀ (term : Term) (node : Node), node.tree = term.tree →
      ∃ e, node.expr? = .ok (some e) ∧ e.node = node ∧ termOf e = some term.asRead ∧
        e.stringContent? = term.stringContent? ∧
        (term.form = .index → Index.memberName node = .ok term.memberName?)) ∧
    (∀ (call : Call) (node : Node), node.tree = call.tree →
      LuaTypes.Call.stringArg node = .ok call.stringArg?) ∧
    (∀ (stmt : Stmt) (node : Node), node.tree = stmt.tree →
      node.stmt? = .ok (some node) ∧ stmtOf node = some stmt.asRead) ∧
    (∀ (stmts : List Stmt) (node : Node), node.tree = Build.sourceFile (stmts.map Stmt.tree) →
      stmtsOf node = some (stmts.map Stmt.asRead)) ∧
    (∀ value : String, Text.undelimited ("\"" ++ value ++ "\"") = some value) ∧
    (∀ (op : UnaryOp) (operand : Term),
      Build.unary op.kind operand.tree = .ok (Term.unary op operand).tree) ∧
    (∀ (lhs : Term) (op : BinaryOp) (rhs : Term),
      Build.binary lhs.tree op.kind rhs.tree = .ok (Term.binary lhs op rhs).tree) ∧
    ∀ (base : Term) (name : String) (args : List Term),
      (Call.method base name args).tree = Build.methodCall base.tree name (args.map Term.tree) := by
  refine ⟨?_, ?_, ?_, ?_, undelimited_quoted, ?_, ?_, ?_⟩
  · intro term node h
    have hlabel : node.label = .known term.form.kind :=
      Node.label_of_kind? (h ▸ term.kind?_tree)
    refine ⟨_, Node.expr?_of_label hlabel, rfl, recovers_termOf term _ h,
      stringContent?_of_tree h, memberName_of_tree h⟩
  · intro call node
    exact stringArg_of_tree
  · intro stmt node h
    exact ⟨Node.stmt?_of_isStmt (h ▸ stmt.isStmt_tree), recovers_stmtOf stmt node h⟩
  · intro stmts node h
    rw [← stmtsAsRead_eq]
    exact recovers_stmtsOf (by rw [h, treesOfStmts_eq])
  · intro op operand
    exact op.unary_eq operand.tree
  · intro lhs op rhs
    exact op.binary_eq lhs.tree rhs.tree
  · intro base name args
    rw [Call.method, Call.tree, treesOfTerms_eq]
    rfl

/-- A file that declares a function with a call without parentheses in it, and returns a table. -/
theorem round_trip_nested :
    let call := Call.string (.field (.name "a") "b") "v"
    let body := [Stmt.declare ["y"] [.call call], .ret [.index (.name "y") (.name "x")]]
    let file := [Stmt.localFunction "f" ["x", ""] body, .ret [.table [.name "f"]]]
    let read := Call.plain (.field (.name "a") "b") [.literal (.string "\"v\"")]
    ∃ root member inner line, Node.root? (Build.sourceFile (file.map Stmt.tree)) = some root ∧
      Node.root? (Term.field (.name "a") "b").tree = some member ∧
      Node.root? call.tree = some inner ∧
      Node.root? (Stmt.declare ["y"] [.call call]).tree = some line ∧
      stmtsOf root = some
        [.localFunction "f" ["x", ""]
          [.declare ["y"] [.call read], .ret [.index (.name "y") (.name "x")]],
          .ret [.table []]] ∧
      (∃ e, member.expr? = .ok (some e) ∧ termOf e = some (.field (.name "a") "b") ∧
        Index.memberName member = .ok (some "b")) ∧
      LuaTypes.Call.stringArg inner = .ok (some "v") ∧
      stmtOf line = some (.declare ["y"] [.call read]) := by
  intro call body file read
  have hroot : ∀ kind parts, ∃ node, Node.root? (Build.node kind parts) = some node :=
    fun _ _ => ⟨_, rfl⟩
  obtain ⟨root, hroot'⟩ := hroot .sourceFile [Build.block (file.map Stmt.tree)]
  obtain ⟨member, hmember⟩ : ∃ node, Node.root? (Term.field (.name "a") "b").tree = some node :=
    hroot _ _
  obtain ⟨inner, hinner⟩ : ∃ node, Node.root? call.tree = some node := hroot _ _
  obtain ⟨line, hline⟩ : ∃ node, Node.root? (Stmt.declare ["y"] [.call call]).tree = some node :=
    hroot _ _
  obtain ⟨hterm, hcall, hstmt, hfile, -⟩ := round_trip
  obtain ⟨e, he, -, hread, -, hname⟩ := hterm _ member (Node.tree_of_root? hmember)
  exact ⟨root, member, inner, line, hroot', hmember, hinner, hline,
    hfile file root (Node.tree_of_root? hroot'), ⟨e, he, hread, hname rfl⟩,
    hcall call inner (Node.tree_of_root? hinner),
    (hstmt _ line (Node.tree_of_root? hline)).2⟩

end LuaTypes.Ast
