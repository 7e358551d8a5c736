import LuaTypes.Proofs.Tree.Shapes

/-!
# Parts of built trees

A constructor puts its parts where the readings of its form look for them: no mark, blank or sibling
is taken for a part, whatever the parts are. So a node that stands for a built tree, wherever it
stands, gives back the parts that the tree was built from.

* `Build.filter_separated`: searches step over what stands between the items of a list;
* one lemma for each constructor: what the readings of its form give.
-/

namespace LuaTypes

namespace Tree

@[simp] theorem isExpr_node (kind : Kind) (parts : List Tree) :
    (Build.node kind parts).isExpr = kind.form?.isSome := rfl

@[simp] theorem isOfKind_node (kind kind' : Kind) (parts : List Tree) :
    (Build.node kind parts).isOfKind kind' = (kind == kind') := rfl

@[simp] theorem isLegible_node (kind : Kind) (parts : List Tree) :
    (Build.node kind parts).isLegible = true := rfl

@[simp] theorem isExpr_token (kind : Kind) (text : String) :
    (token kind text).isExpr = false := rfl

@[simp] theorem isStmt_token (kind : Kind) (text : String) :
    (token kind text).isStmt = false := rfl

@[simp] theorem isOfKind_token (kind kind' : Kind) (text : String) :
    (token kind text).isOfKind kind' = false := rfl

end Tree

/-! ### Lists of parts -/

namespace Build

theorem mem_separated {separator items : List Tree} {part : Tree}
    (h : part ∈ separated separator items) : part ∈ separator ∨ part ∈ items := by
  induction items with
  | nil => cases h
  | cons item rest ih =>
    cases rest with
    | nil => exact Or.inr h
    | cons other rest =>
      rcases List.mem_cons.1 h with rfl | h
      · exact Or.inr List.mem_cons_self
      · rcases List.mem_append.1 h with h | h
        · exact Or.inl h
        · exact (ih h).imp_right (List.mem_cons_of_mem _)

theorem filter_separated {separator items : List Tree} {test : Tree → Bool}
    (hseparator : separator.filter test = []) :
    (separated separator items).filter test = items.filter test := by
  induction items with
  | nil => rfl
  | cons item rest ih =>
    cases rest with
    | nil => rfl
    | cons other rest =>
      show (item :: (separator ++ separated separator (other :: rest))).filter test = _
      rw [List.filter_cons, List.filter_append, hseparator, List.nil_append, ih, ← List.filter_cons]

theorem isLegible_of_mem_separated {separator items : List Tree}
    (hseparator : ∀ part ∈ separator, part.isLegible = true)
    (hitems : ∀ item ∈ items, item.isLegible = true) :
    ∀ part ∈ separated separator items, part.isLegible = true := by
  intro part hpart
  rcases mem_separated hpart with hmem | hmem
  · exact hseparator part hmem
  · exact hitems part hmem

theorem isLegible_of_mem_withCommas {items : List Tree}
    (h : ∀ item ∈ items, item.isLegible = true) :
    ∀ part ∈ withCommas items, part.isLegible = true :=
  isLegible_of_mem_separated (by simp [spelled, blank]) h

end Build

/-! ### Sizes -/

namespace Tree

@[simp] theorem nodeCount_node (kind : Kind) (parts : List Tree) :
    (Build.node kind parts).nodeCount = nodeCountAll parts + 1 := rfl

@[simp] theorem nodeCountAll_nil : nodeCountAll [] = 0 := rfl

@[simp] theorem nodeCountAll_cons (tree : Tree) (rest : List Tree) :
    nodeCountAll (tree :: rest) = tree.nodeCount + nodeCountAll rest := rfl

@[simp] theorem nodeCountAll_append (front back : List Tree) :
    nodeCountAll (front ++ back) = nodeCountAll front + nodeCountAll back := by
  induction front with
  | nil => simp
  | cons tree rest ih => simp [ih, Nat.add_assoc]

theorem nodeCount_le_all {tree : Tree} {trees : List Tree} (h : tree ∈ trees) :
    tree.nodeCount ≤ nodeCountAll trees := by
  induction trees with
  | nil => cases h
  | cons other rest ih =>
    rw [nodeCountAll_cons]
    rcases List.mem_cons.1 h with rfl | h
    · exact Nat.le_add_right _ _
    · exact Nat.le_trans (ih h) (Nat.le_add_left _ _)

theorem nodeCount_pos {tree : Tree} (h : tree.isNode = true) : 0 < tree.nodeCount := by
  cases tree with
  | node => exact Nat.succ_pos _
  | token => cases h

theorem nodeCount_lt_of_mem {kind : Kind} {parts : List Tree} {part : Tree} (h : part ∈ parts) :
    part.nodeCount < (Build.node kind parts).nodeCount :=
  Nat.lt_succ_of_le (nodeCount_le_all h)

theorem nodeCountAll_separated {separator items : List Tree} (h : nodeCountAll separator = 0) :
    nodeCountAll (Build.separated separator items) = nodeCountAll items := by
  induction items with
  | nil => rfl
  | cons item rest ih =>
    cases rest with
    | nil => rfl
    | cons other rest => simp [Build.separated, h, ih]

@[simp] theorem nodeCountAll_withCommas (items : List Tree) :
    nodeCountAll (Build.withCommas items) = nodeCountAll items := nodeCountAll_separated rfl

@[simp] theorem nodeCount_block (stmts : List Tree) :
    (Build.block stmts).nodeCount = nodeCountAll stmts + 1 := by
  rw [Build.block, nodeCount_node, nodeCountAll_separated rfl]

end Tree

namespace Node

variable {node : Node} {kind : Kind} {parts : List Tree}

theorem label_of_tree (h : node.tree = Build.node kind parts) : node.label = .known kind := by
  injection h

theorem kind_of_tree (h : node.tree = Build.node kind parts) : node.kind = .ok kind :=
  congrArg Label.kind (label_of_tree h)

theorem hasParts_of_tree (h : node.tree = Build.node kind parts)
    (hlegible : ∀ part ∈ parts, part.isLegible = true) : node.HasParts parts := by
  injection h with _ hcontent
  exact ⟨hcontent, hlegible⟩

theorem tokens_of_tree (h : node.tree = Build.node kind parts) : node.tokens = tokensOf parts := by
  injection h with _ hcontent
  rw [tokens, hcontent]

/-! Items of a list stand between commas, and the list between marks. -/

section Listed

variable {front back items : List Tree}

theorem hasParts_of_listed
    (h : node.tree = Build.node kind (front ++ (Build.withCommas items ++ back)))
    (hfront : ∀ part ∈ front, part.isNode = false) (hback : ∀ part ∈ back, part.isNode = false)
    (hitems : ∀ item ∈ items, item.isLegible = true) :
    node.HasParts (front ++ (Build.withCommas items ++ back)) := by
  refine hasParts_of_tree h fun part hpart => ?_
  rcases List.mem_append.1 hpart with hpart | hpart
  · exact Tree.isLegible_of_not_isNode (hfront part hpart)
  · rcases List.mem_append.1 hpart with hpart | hpart
    · exact Build.isLegible_of_mem_withCommas hitems part hpart
    · exact Tree.isLegible_of_not_isNode (hback part hpart)

/-- What is looked for are inner nodes, and all items. -/
theorem filter_listed {test : Tree → Bool}
    (htest : ∀ part : Tree, test part = true → part.isNode = true)
    (hfront : ∀ part ∈ front, part.isNode = false) (hback : ∀ part ∈ back, part.isNode = false)
    (hitems : ∀ item ∈ items, test item = true) :
    (front ++ (Build.withCommas items ++ back)).filter test = items := by
  have hmarks : ∀ marks : List Tree, (∀ part ∈ marks, part.isNode = false) →
      marks.filter test = [] := by
    intro marks h
    rw [List.filter_eq_nil_iff]
    intro part hpart hfound
    cases (htest part hfound).symm.trans (h part hpart)
  rw [List.filter_append, List.filter_append, hmarks front hfront, hmarks back hback,
    Build.withCommas, Build.filter_separated, List.filter_eq_self.2 hitems]
  · simp
  · exact hmarks _ (by simp [Build.spelled, Build.blank, Tree.isNode])

theorem exprs_of_listed
    (h : node.tree = Build.node kind (front ++ (Build.withCommas items ++ back)))
    (hfront : ∀ part ∈ front, part.isNode = false) (hback : ∀ part ∈ back, part.isNode = false)
    (hitems : ∀ item ∈ items, item.isExpr = true) : GivesParts Expr.tree node.exprs items := by
  have hparts := hasParts_of_listed h hfront hback fun item hitem =>
    Tree.isLegible_of_isExpr (hitems item hitem)
  rw [← filter_listed (fun _ => Tree.isNode_of_isExpr) hfront hback hitems]
  exact hparts.exprs

theorem names_of_listed {names : List String}
    (h : node.tree =
      Build.node kind (front ++ (Build.withCommas (names.map Build.declaredName) ++ back)))
    (hfront : ∀ part ∈ front, part.isNode = false) (hback : ∀ part ∈ back, part.isNode = false) :
    GivesParts Node.tree (node.childrenOfKind .name) (names.map Build.declaredName) := by
  have hparts := hasParts_of_listed h hfront hback (by simp [Build.declaredName])
  have hnames : ∀ item ∈ names.map Build.declaredName, item.isOfKind .name = true := by
    simp [Build.declaredName]
  rw [← filter_listed (fun _ => Tree.isNode_of_isOfKind) hfront hback hnames]
  exact hparts.childrenOfKind .name

end Listed

end Node

/-! ### Literals and names -/

@[simp] theorem tokensOf_token (kind : Kind) (text : String) (rest : List Tree) :
    tokensOf (.token kind text :: rest) = ⟨kind, text⟩ :: tokensOf rest := rfl

theorem tokensOf_expr {tree : Tree} (h : tree.isExpr = true) (rest : List Tree) :
    tokensOf (tree :: rest) = tokensOf rest := by
  cases tree with
  | node => rfl
  | token => cases h

variable {node : Node}

theorem Literal.token?_of_tree {kind : Kind} {text : String}
    (h : node.tree = Build.node .literal [.token kind text]) (hkind : kind.isSilent = false) :
    Literal.token? node = some ⟨kind, text⟩ := by
  simp [Literal.token?, Node.tokens_of_tree h, tokensOf, hkind]

theorem Name.name?_of_tree {kind : Kind} {text : String}
    (h : node.tree = Build.node kind [.token .ident text]) : Name.name? node = some text := by
  simp [Name.name?, Node.token?, Node.tokens_of_tree h, tokensOf]

/-! ### Parentheses and operators -/

section Operators

variable {inner lhs rhs tree : Tree} {op : Kind}

theorem Paren.inner_of_tree (h : node.tree = Build.paren inner) (hinner : inner.isExpr = true) :
    GivesPart Expr.tree (Paren.inner node) inner := by
  refine (Node.hasParts_of_tree h ?_).firstExpr ?_
  · simp [Build.spelled, Tree.isLegible_of_isExpr hinner]
  · simp [Build.spelled, hinner]

theorem Unary.op?_of_tree (hbuilt : Build.unary op inner = .ok tree) (h : node.tree = tree) :
    (Unary.op? node).map (·.kind) = some op := by
  unfold Build.unary at hbuilt
  split at hbuilt
  · next hop =>
    cases hbuilt
    simp [Unary.op?, Node.tokens_of_tree h, tokensOf, Build.spelled, hop]
  · cases hbuilt

theorem Unary.operand_of_tree (hbuilt : Build.unary op inner = .ok tree) (h : node.tree = tree)
    (hinner : inner.isExpr = true) : GivesPart Expr.tree (Unary.operand node) inner := by
  unfold Build.unary at hbuilt
  split at hbuilt
  · cases hbuilt
    refine (Node.hasParts_of_tree h ?_).firstExpr ?_
    · split <;> simp [Build.spelled, Build.blank, Tree.isLegible_of_isExpr hinner]
    · split <;> simp [Build.spelled, Build.blank, hinner]
  · cases hbuilt

theorem Binary.op?_of_tree (hbuilt : Build.binary lhs op rhs = .ok tree) (h : node.tree = tree)
    (hlhs : lhs.isExpr = true) : (Binary.op? node).map (·.kind) = some op := by
  unfold Build.binary at hbuilt
  split at hbuilt
  · next hop =>
    cases hbuilt
    have hblank : Kind.whitespace.joinsOperands = false := rfl
    simp [Binary.op?, Node.tokens_of_tree h, tokensOf_expr hlhs, Build.spelled, Build.blank, hop,
      hblank]
  · cases hbuilt

theorem Binary.operands_of_tree (hbuilt : Build.binary lhs op rhs = .ok tree) (h : node.tree = tree)
    (hlhs : lhs.isExpr = true) (hrhs : rhs.isExpr = true) :
    GivesPart Expr.tree (Binary.lhs node) lhs ∧ GivesPart Expr.tree (Binary.rhs node) rhs := by
  unfold Build.binary at hbuilt
  split at hbuilt
  · cases hbuilt
    have hparts := Node.hasParts_of_tree h (by
      simp [Build.spelled, Build.blank, Tree.isLegible_of_isExpr hlhs,
        Tree.isLegible_of_isExpr hrhs])
    constructor
    · exact hparts.firstExpr (by simp [hlhs])
    · exact hparts.secondExpr (by simp [Build.spelled, Build.blank, hlhs, hrhs])
  · cases hbuilt

end Operators

/-! ### Members and calls -/

section Calls

variable {base callee key : Tree} {name : String} {args : List Tree}

/-- Reading the member of a name: of a dot or of a colon. -/
theorem Index.member_of_tree {mark : Kind} (hmark : mark = .dot ∨ mark = .colon)
    (h : node.tree = Build.node .indexExpr [base, Build.spelled mark, .token .ident name])
    (hbase : base.isExpr = true) :
    GivesPart Expr.tree (Index.base node) base ∧ Index.key node = .ok none ∧
      Index.memberName node = .ok (some name) ∧
      Index.isMethodAccess node = decide (mark = .colon) := by
  have hparts := Node.hasParts_of_tree h (by simp [Build.spelled, Tree.isLegible_of_isExpr hbase])
  have htokens := Node.tokens_of_tree h
  rw [tokensOf_expr hbase] at htokens
  refine ⟨hparts.firstExpr (by simp [hbase]), hparts.secondExpr_eq_none ?_, ?_, ?_⟩
  · simp [Build.spelled, hbase]
  · rcases hmark with rfl | rfl <;>
      simp [Index.memberName, Node.token?, htokens, Build.spelled, tokensOf]
  · rcases hmark with rfl | rfl <;>
      simp [Index.isMethodAccess, Node.token?, htokens, Build.spelled, tokensOf]

theorem Index.parts_of_field (h : node.tree = Build.field base name) (hbase : base.isExpr = true) :
    GivesPart Expr.tree (Index.base node) base ∧ Index.key node = .ok none ∧
      Index.memberName node = .ok (some name) ∧ Index.isMethodAccess node = false :=
  Index.member_of_tree (.inl rfl) h hbase

theorem Index.parts_of_method (h : node.tree = Build.method base name)
    (hbase : base.isExpr = true) :
    GivesPart Expr.tree (Index.base node) base ∧ Index.key node = .ok none ∧
      Index.memberName node = .ok (some name) ∧ Index.isMethodAccess node = true :=
  Index.member_of_tree (.inr rfl) h hbase

theorem Index.parts_of_index (h : node.tree = Build.index base key) (hbase : base.isExpr = true)
    (hkey : key.isExpr = true) :
    GivesPart Expr.tree (Index.base node) base ∧ GivesPart Expr.tree (Index.key node) key := by
  have hparts := Node.hasParts_of_tree h (by
    simp [Build.spelled, Tree.isLegible_of_isExpr hbase, Tree.isLegible_of_isExpr hkey])
  constructor
  · exact hparts.firstExpr (by simp [hbase])
  · exact hparts.secondExpr (by simp [Build.spelled, hbase, hkey])

/-- The name of a member under a key in brackets is the key's, if that is a string literal. -/
theorem Index.memberName_of_index (h : node.tree = Build.index base key)
    (hbase : base.isExpr = true) (hkey : key.isExpr = true) :
    ∃ e, Index.key node = .ok (some e) ∧ e.tree = key ∧
      Index.memberName node = .ok e.stringContent? := by
  obtain ⟨e, he, htree⟩ := (Index.parts_of_index h hbase hkey).2
  have htokens := Node.tokens_of_tree h
  rw [tokensOf_expr hbase, Build.spelled, tokensOf_token, tokensOf_expr hkey] at htokens
  refine ⟨e, he, htree, ?_⟩
  simp [Index.memberName, Node.token?, htokens, Build.spelled, tokensOf, he, Except.map]

theorem Call.args_of_argList {list : Tree} (hlist : GivesPart Node.tree (Call.argList node) list)
    (hargs : ∀ found : Node, found.tree = list → GivesParts Expr.tree found.exprs args) :
    GivesParts Expr.tree (Call.args node) args := by
  obtain ⟨found, hfound, htree⟩ := hlist
  rw [Call.args, hfound]
  exact hargs found htree

theorem Call.hasParts_of_call (h : node.tree = Build.call callee args)
    (hcallee : callee.isExpr = true) : node.HasParts [callee, Build.argList args] :=
  Node.hasParts_of_tree h (by simp [Build.argList, Tree.isLegible_of_isExpr hcallee])

theorem Call.callee_of_call (h : node.tree = Build.call callee args)
    (hcallee : callee.isExpr = true) : GivesPart Expr.tree (Call.callee node) callee :=
  (Call.hasParts_of_call h hcallee).firstExpr (by simp [hcallee])

theorem Call.args_of_call (h : node.tree = Build.call callee args) (hcallee : callee.isExpr = true)
    (hargs : ∀ arg ∈ args, arg.isExpr = true) : GivesParts Expr.tree (Call.args node) args := by
  have hskip : callee.isOfKind .argList = false := Tree.isOfKind_of_isExpr hcallee rfl
  have hlist : GivesPart Node.tree (Call.argList node) (Build.argList args) :=
    (Call.hasParts_of_call h hcallee).childOfKind (by simp [hskip, Build.argList])
  refine Call.args_of_argList hlist fun found hfound => ?_
  have hfound : found.tree = Build.node .argList
      ([Build.spelled .lParen] ++ (Build.withCommas args ++ [Build.spelled .rParen])) := hfound
  exact Node.exprs_of_listed hfound (by simp [Build.spelled, Tree.isNode])
    (by simp [Build.spelled, Tree.isNode]) hargs

theorem Call.parts_of_stringCall {value : String}
    (h : node.tree = Build.stringCall callee value) (hcallee : callee.isExpr = true) :
    GivesPart Expr.tree (Call.callee node) callee ∧
      GivesParts Expr.tree (Call.args node) [Build.string value] := by
  have hparts := Node.hasParts_of_tree h (by
    simp [Build.blank, Tree.isLegible_of_isExpr hcallee])
  have hskip : callee.isOfKind .argList = false := Tree.isOfKind_of_isExpr hcallee rfl
  have hlist : GivesPart Node.tree (Call.argList node) (Build.node .argList [Build.string value]) :=
    hparts.childOfKind (by simp [hskip, Build.blank])
  constructor
  · exact hparts.firstExpr (by simp [hcallee])
  · refine Call.args_of_argList hlist fun found hfound => ?_
    exact (Node.hasParts_of_tree hfound (by simp [Build.string, Build.rawString])).exprs

theorem firstHit_of_hits {α β : Type} {look : α → Reading (Option β)} {as : List α} {bs : List β}
    (h : hits look as = .ok bs) : firstHit look as = .ok bs.head? := by
  induction as generalizing bs with
  | nil =>
    cases h
    rfl
  | cons a rest ih =>
    simp only [hits, firstHit] at h ⊢
    split at h
    · cases h
    · next hnone => rw [hnone]; exact ih h
    · next b hsome =>
      rw [hsome]
      cases hrest : hits look rest <;> rw [hrest] at h <;> cases h
      rfl

/-- The string argument of a call is the value of its first argument. -/
theorem Call.stringArg_of_args {es : List Expr} (h : Call.args node = .ok es) :
    Call.stringArg node = .ok (es.head?.bind (·.stringContent?)) := by
  unfold Call.args at h
  obtain ⟨list, hlist, h⟩ := reading_bind_eq_ok.1 h
  rw [Call.stringArg, hlist]
  cases list with
  | none =>
    cases h
    rfl
  | some list =>
    have hfirst : list.firstExpr = .ok es.head? := firstHit_of_hits h
    show (do return (← list.firstExpr).bind (·.stringContent?)) = _
    rw [hfirst]
    rfl

end Calls

/-! ### Function bodies and statements -/

section Statements

variable {params names : List String} {name : String} {stmts exprs : List Tree} {target : Tree}

theorem Closure.body_of_tree (h : node.tree = Build.closure params stmts) :
    GivesPart Node.tree (Closure.body node) (Build.funcBody params stmts) :=
  (Node.hasParts_of_tree h (by simp [Build.spelled, Build.funcBody])).childOfKind
    (by simp [Build.spelled, Build.funcBody])

theorem Body.parts_of_tree (h : node.tree = Build.funcBody params stmts) :
    GivesParts Node.tree (Body.params node) (params.map Build.declaredName) ∧
      GivesPart Node.tree (Body.block node) (Build.block stmts) := by
  have hparts := Node.hasParts_of_tree h (by simp [Build.spelled, Build.blank, Build.block])
  constructor
  · obtain ⟨list, hlist, htree⟩ : GivesPart Node.tree (Body.paramList node) (Build.node .paramList
        ([Build.spelled .lParen] ++ (Build.withCommas (params.map Build.declaredName) ++
          [Build.spelled .rParen]))) := hparts.childOfKind (by simp)
    rw [Body.params, hlist]
    exact Node.names_of_listed htree (by simp [Build.spelled, Tree.isNode])
      (by simp [Build.spelled, Tree.isNode])
  · exact hparts.childOfKind (by simp [Build.blank, Build.block])

theorem Block.stmts_of_tree (h : node.tree = Build.block stmts)
    (hstmts : ∀ stmt ∈ stmts, stmt.isStmt = true) :
    GivesParts Node.tree (Block.stmts node) stmts := by
  have hparts := Node.hasParts_of_tree h (Build.isLegible_of_mem_separated
    (by simp [Build.newline]) fun stmt hstmt => Tree.isLegible_of_isStmt (hstmts stmt hstmt))
  have hfound := hparts.stmts
  rwa [Build.filter_separated (by simp [Build.newline]), List.filter_eq_self.2 hstmts] at hfound

/-- Where there is no list of expressions, none are read. -/
theorem Node.listedExprs_of_tree {kind : Kind} {front marks : List Tree}
    (h : node.tree = Build.node kind (front ++ if exprs.isEmpty then []
      else marks ++ [Build.node .exprList (Build.withCommas exprs)]))
    (hlegible : ∀ part ∈ front ++ marks, part.isLegible = true)
    (hskip : ∀ part ∈ front ++ marks, part.isOfKind .exprList = false)
    (hexprs : ∀ e ∈ exprs, e.isExpr = true) : GivesParts Expr.tree node.listedExprs exprs := by
  cases exprs with
  | nil =>
    have htree : node.tree = Build.node kind front := by simpa using h
    have hnone : node.childOfKind .exprList = .ok none :=
      (hasParts_of_tree htree fun part hpart => hlegible part (by simp [hpart])).childOfKind_eq_none
        (List.find?_eq_none.2 fun part hpart => by simp [hskip part (by simp [hpart])])
    exact ⟨[], by rw [listedExprs, hnone]; rfl, rfl⟩
  | cons e rest =>
    have htree : node.tree = Build.node kind
        ((front ++ marks) ++ [Build.node .exprList (Build.withCommas (e :: rest))]) := by
      simpa using h
    have hparts := hasParts_of_tree htree fun part hpart => by
      rcases List.mem_append.1 hpart with hpart | hpart
      · exact hlegible part hpart
      · rw [List.mem_singleton.1 hpart]
        rfl
    have hbefore : (front ++ marks).find? (Tree.isOfKind .exprList) = none :=
      List.find?_eq_none.2 fun part hpart => by simp [hskip part hpart]
    obtain ⟨list, hlist, hlisttree⟩ : GivesPart Node.tree (node.childOfKind .exprList)
        (Build.node .exprList ([] ++ (Build.withCommas (e :: rest) ++ []))) :=
      hparts.childOfKind (by rw [List.find?_append, hbefore]; simp)
    rw [listedExprs, hlist]
    exact exprs_of_listed hlisttree (by simp) (by simp) hexprs

theorem LocalStmt.parts_of_tree (h : node.tree = Build.localStmt names exprs)
    (hexprs : ∀ e ∈ exprs, e.isExpr = true) :
    GivesParts Node.tree (LocalStmt.names node) (names.map Build.declaredName) ∧
      GivesParts Expr.tree (LocalStmt.exprs node) exprs := by
  have hparts := Node.hasParts_of_tree h (by
    split <;> simp [Build.spelled, Build.blank])
  constructor
  · obtain ⟨list, hlist, htree⟩ : GivesPart Node.tree (node.childOfKind .nameList)
        (Build.node .nameList ([] ++ (Build.withCommas (names.map Build.declaredName) ++ []))) :=
      hparts.childOfKind (by simp [Build.spelled, Build.blank])
    rw [LocalStmt.names, hlist]
    exact Node.names_of_listed htree (by simp) (by simp)
  · have htree : node.tree = Build.node .localStmt
        ([Build.spelled .localKw, Build.blank,
            Build.node .nameList (Build.withCommas (names.map Build.declaredName))] ++
          if exprs.isEmpty then []
          else [Build.blank, Build.spelled .eq, Build.blank] ++
            [Build.node .exprList (Build.withCommas exprs)]) := h
    refine Node.listedExprs_of_tree htree ?_ ?_ hexprs <;> simp [Build.spelled, Build.blank]

theorem LocalFunction.parts_of_tree (h : node.tree = Build.localFunction name params stmts) :
    GivesPart Node.tree (LocalFunction.name node) (Build.declaredName name) ∧
      GivesPart Node.tree node.body (Build.funcBody params stmts) := by
  have hparts := Node.hasParts_of_tree h (by
    simp [Build.spelled, Build.blank, Build.declaredName, Build.funcBody])
  constructor
  · exact hparts.childOfKind (by simp [Build.spelled, Build.blank, Build.declaredName])
  · exact hparts.childOfKind (by
      simp [Build.spelled, Build.blank, Build.declaredName, Build.funcBody])

theorem FunctionStmt.parts_of_tree (h : node.tree = Build.functionStmt target params stmts)
    (htarget : target.isExpr = true) :
    GivesPart Expr.tree (FunctionStmt.target node) target ∧
      GivesPart Node.tree node.body (Build.funcBody params stmts) := by
  have hparts := Node.hasParts_of_tree h (by
    simp [Build.spelled, Build.blank, Build.funcBody, Tree.isLegible_of_isExpr htarget])
  have hskip : target.isOfKind .funcBody = false := Tree.isOfKind_of_isExpr htarget rfl
  constructor
  · exact hparts.firstExpr (by simp [Build.spelled, Build.blank, htarget])
  · exact hparts.childOfKind (by simp [Build.spelled, Build.blank, hskip, Build.funcBody])

theorem ReturnStmt.exprs_of_tree (h : node.tree = Build.returnStmt exprs)
    (hexprs : ∀ e ∈ exprs, e.isExpr = true) :
    GivesParts Expr.tree (ReturnStmt.exprs node) exprs := by
  have htree : node.tree = Build.node .returnStmt ([Build.spelled .returnKw] ++
      if exprs.isEmpty then []
      else [Build.blank] ++ [Build.node .exprList (Build.withCommas exprs)]) := h
  refine Node.listedExprs_of_tree htree ?_ ?_ hexprs <;> simp [Build.spelled, Build.blank]

theorem CallStmt.call_of_tree {call : Tree} (h : node.tree = Build.callStmt call)
    (hcall : call.isOfKind .callExpr = true) : GivesPart Node.tree (CallStmt.call node) call := by
  have hlegible : call.isLegible = true := Tree.isLegible_of_kind? (beq_iff_eq.1 hcall)
  exact (Node.hasParts_of_tree h (by simp [hlegible])).childOfKind (by simp [hcall])

theorem SourceFile.block_of_tree (h : node.tree = Build.sourceFile stmts) :
    GivesPart Node.tree (SourceFile.block node) (Build.block stmts) :=
  (Node.hasParts_of_tree h (by simp [Build.block])).childOfKind (by simp [Build.block])

end Statements

end LuaTypes
