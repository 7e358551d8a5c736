import LuaTypes.Proofs.Tree.Spans
import LuaTypes.Tree.Build

/-!
# Trees built by constructors

Whatever trees are put together by the constructors, in whatever places, all kinds are known and
the widths of the parts tell the expressions apart: every form of expression has a token of its own
that is not empty, and such a token stands before each part that follows another.

* `Made`: the trees that the constructors build;
* `Made.isOrderly`: their kinds are known and the widths of the parts tell their expressions apart;
* `Made.isKnown`, `Made.eq_of_span`: what this says of the nodes.
-/

namespace LuaTypes

/-- The trees that the constructors build. -/
inductive Made : Tree → Prop
  | number (text : String) : Made (Build.number text)
  | rawString (text : String) : Made (Build.rawString text)
  | boolean (value : Bool) : Made (Build.boolean value)
  | nil : Made Build.nil
  | name (text : String) : Made (Build.name text)
  | paren {inner : Tree} (h : Made inner) : Made (Build.paren inner)
  | unary {op : Kind} {operand tree : Tree} (h : Made operand)
    (ok : Build.unary op operand = .ok tree) : Made tree
  | binary {lhs : Tree} {op : Kind} {rhs tree : Tree} (hl : Made lhs) (hr : Made rhs)
    (ok : Build.binary lhs op rhs = .ok tree) : Made tree
  | call {callee : Tree} {args : List Tree} (h : Made callee) (hs : ∀ arg ∈ args, Made arg) :
    Made (Build.call callee args)
  | stringCall {callee : Tree} (h : Made callee) (value : String) :
    Made (Build.stringCall callee value)
  | field {base : Tree} (h : Made base) (name : String) : Made (Build.field base name)
  | method {base : Tree} (h : Made base) (name : String) : Made (Build.method base name)
  | index {base key : Tree} (hb : Made base) (hk : Made key) : Made (Build.index base key)
  | closure (params : List String) {stmts : List Tree} (hs : ∀ stmt ∈ stmts, Made stmt) :
    Made (Build.closure params stmts)
  | table {values : List Tree} (hs : ∀ value ∈ values, Made value) : Made (Build.table values)
  | localStmt (names : List String) {exprs : List Tree} (hs : ∀ e ∈ exprs, Made e) :
    Made (Build.localStmt names exprs)
  | localFunction (name : String) (params : List String) {stmts : List Tree}
    (hs : ∀ stmt ∈ stmts, Made stmt) : Made (Build.localFunction name params stmts)
  | functionStmt {target : Tree} (h : Made target) (params : List String) {stmts : List Tree}
    (hs : ∀ stmt ∈ stmts, Made stmt) : Made (Build.functionStmt target params stmts)
  | returnStmt {exprs : List Tree} (hs : ∀ e ∈ exprs, Made e) : Made (Build.returnStmt exprs)
  | callStmt {call : Tree} (h : Made call) : Made (Build.callStmt call)
  | sourceFile {stmts : List Tree} (hs : ∀ stmt ∈ stmts, Made stmt) : Made (Build.sourceFile stmts)

namespace Tree

mutual

/-- Whether all nodes of a tree are of known kinds. -/
def isKnown : Tree → Bool
  | .node (.known _) content => isKnownAll content
  | .node (.foreign _) _ => false
  | .token .. => true

/-- Whether all nodes of a list of trees are of known kinds. -/
def isKnownAll : List Tree → Bool
  | [] => true
  | tree :: rest => tree.isKnown && isKnownAll rest

end

mutual

theorem exists_kind_of_isKnown {above : List Site} {start index : Nat} {node : Node} :
    ∀ tree : Tree, tree.isKnown = true → node ∈ Node.preorderAt above start index tree →
      ∃ kind, node.label = .known kind
  | .token .., _, h => by cases h
  | .node (.foreign _) content, hknown, _ => by cases hknown
  | .node (.known kind) content, hknown, h => by
    rcases List.mem_cons.1 h with rfl | h
    · exact ⟨kind, rfl⟩
    · exact exists_kind_of_isKnownAll content hknown h

theorem exists_kind_of_isKnownAll {above : List Site} {start index : Nat} {node : Node} :
    ∀ trees : List Tree, isKnownAll trees = true →
      node ∈ Node.preorderFrom above start index trees → ∃ kind, node.label = .known kind
  | [], _, h => by cases h
  | tree :: rest, hknown, h => by
    simp only [isKnownAll, Bool.and_eq_true] at hknown
    rcases List.mem_append.1 h with h | h
    · exact exists_kind_of_isKnown tree hknown.1 h
    · exact exists_kind_of_isKnownAll rest hknown.2 h

end

/-- Whether the kinds of a tree are known and its expressions told apart. -/
def isOrderly (tree : Tree) : Bool := tree.isKnown && tree.isSpread

/-- Whether the kinds in a list of trees are known and the expressions told apart. -/
def isOrderlyAll (trees : List Tree) : Bool := isKnownAll trees && isSpreadAll trees

/-! ### Lists of parts -/

theorem isKnownAll_append (trees more : List Tree) :
    isKnownAll (trees ++ more) = (isKnownAll trees && isKnownAll more) := by
  induction trees with
  | nil => simp [isKnownAll]
  | cons tree rest ih => simp [isKnownAll, ih, Bool.and_assoc]

theorem isLedAll_append {trees more : List Tree} (h : isLedAll more = true) :
    isLedAll (trees ++ more) = isLedAll trees := by
  induction trees with
  | nil => simpa [isLedAll] using h
  | cons tree rest ih => simp [isLedAll, ih]

theorem isSpreadAll_append {trees more : List Tree} (h : isLedAll more = true) :
    isSpreadAll (trees ++ more) = (isSpreadAll trees && isSpreadAll more) := by
  induction trees with
  | nil => simp [isSpreadAll]
  | cons tree rest ih =>
    simp only [List.cons_append, isSpreadAll, ih, isLedAll_append h]
    cases tree.isSpread <;> cases isSpreadAll rest <;> cases isSpreadAll more <;> simp

/-- Trees that are orderly side by side, with an expression in them or not. -/
theorem isOrderlyAll_cons {tree : Tree} {rest : List Tree} (h : tree.isOrderly = true)
    (hrest : isOrderlyAll rest = true) (hled : isLedAll rest = true) :
    isOrderlyAll (tree :: rest) = true := by
  simp only [isOrderly, isOrderlyAll, isKnownAll, isSpreadAll, Bool.and_eq_true] at *
  exact ⟨⟨h.1, hrest.1⟩, ⟨h.2, hrest.2⟩, by simp [hled]⟩

theorem isOrderlyAll_append {trees more : List Tree} (h : isOrderlyAll trees = true)
    (hmore : isOrderlyAll more = true) (hled : isLedAll more = true) :
    isOrderlyAll (trees ++ more) = true := by
  simp only [isOrderlyAll, isKnownAll_append, isSpreadAll_append hled, Bool.and_eq_true] at *
  exact ⟨⟨h.1, hmore.1⟩, h.2, hmore.2⟩

@[simp] theorem isOrderlyAll_nil : isOrderlyAll [] = true := rfl

@[simp] theorem isOrderlyAll_token (kind : Kind) (text : String) (rest : List Tree) :
    isOrderlyAll (.token kind text :: rest) = isOrderlyAll rest := by
  simp [isOrderlyAll, isKnownAll, isKnown, isSpreadAll, isSpread, hasExpr]

/-- An inner node of a known kind is orderly if its parts are and no expression among them covers
as much as the node, in case that is an expression. -/
theorem isOrderly_node {kind : Kind} {content : List Tree} (h : isOrderlyAll content = true)
    (hcovered : kind.form? = none ∨ isCoveredAll content = false) :
    (Build.node kind content).isOrderly = true := by
  simp only [isOrderlyAll, Bool.and_eq_true] at h
  simp only [isOrderly, Build.node, isKnown, isSpread, Label.isExpr, h, Bool.true_and,
    Bool.not_eq_true', Bool.and_eq_false_iff]
  exact hcovered.imp (by simp_all) id

end Tree

namespace Build

open LuaTypes.Tree

/-- Every keyword, operator and punctuation mark has a spelling. -/
theorem width_spelled {kind : Kind} (h : kind.spelling?.isSome = true) :
    0 < (spelled kind).width := by
  revert h
  cases kind <;> decide

theorem width_blank : 0 < blank.width := by decide

/-- What comes after a part that is led and not empty is led. -/
theorem isLedAll_cons {tree : Tree} (hled : tree.isLed = true) (hwidth : 0 < tree.width)
    (rest : List Tree) : isLedAll (tree :: rest) = true := by
  simp [isLedAll, hled, hwidth]

theorem isLedAll_token {kind : Kind} {text : String} (h : 0 < text.utf8ByteSize)
    (rest : List Tree) : isLedAll (.token kind text :: rest) = true :=
  isLedAll_cons (show (Tree.token kind text).isLed = true from rfl) h rest

/-- A node that is no expression is led if its parts are. -/
theorem isLed_node {kind : Kind} {content : List Tree} (hkind : kind.form? = none)
    (h : isLedAll content = true) : (node kind content).isLed = true := by
  simp [node, isLed, Label.isExpr, hkind, h]

theorem width_pos_of_mem {tree : Tree} {trees : List Tree} (h : tree ∈ trees)
    (hwidth : 0 < tree.width) : 0 < widthAll trees := by
  induction trees with
  | nil => cases h
  | cons first rest ih =>
    simp only [widthAll]
    rcases List.mem_cons.1 h with rfl | h
    · omega
    · have := ih h
      omega

/-- Where a part is not empty and no expression covers it, none covers the whole. -/
theorem isCoveredAll_of_mem (tree : Tree) {trees : List Tree} (h : tree ∈ trees)
    (hwidth : 0 < tree.width) (hcovered : tree.isCovered = false) : isCoveredAll trees = false := by
  induction trees with
  | nil => cases h
  | cons first rest ih =>
    simp only [isCoveredAll, Bool.or_eq_false_iff, Bool.and_eq_false_iff, decide_eq_false_iff_not]
    rcases List.mem_cons.1 h with rfl | h
    · exact ⟨Or.inl hcovered, Or.inl (by omega)⟩
    · have hrest := width_pos_of_mem h hwidth
      exact ⟨Or.inr (by omega), Or.inr (ih h)⟩

/-- Orderly trees are orderly between separators made of tokens that are not all empty. -/
theorem isOrderlyAll_separated {separator items : List Tree}
    (hled : ∀ rest, isLedAll (separator ++ rest) = true)
    (htokens : ∀ rest, isOrderlyAll (separator ++ rest) = isOrderlyAll rest)
    (h : ∀ item ∈ items, item.isOrderly = true) :
    isOrderlyAll (separated separator items) = true := by
  induction items with
  | nil => rfl
  | cons item rest ih =>
    rw [List.forall_mem_cons] at h
    have hrest := ih h.2
    cases rest with
    | nil => exact isOrderlyAll_cons h.1 rfl rfl
    | cons other rest =>
      apply isOrderlyAll_cons h.1
      · rw [htokens]
        exact hrest
      · exact hled _

theorem isOrderlyAll_withCommas {items : List Tree} (h : ∀ item ∈ items, item.isOrderly = true) :
    isOrderlyAll (withCommas items) = true := by
  apply isOrderlyAll_separated _ _ h
  · intro rest
    exact isLedAll_token (by decide) (blank :: rest)
  · intro rest
    simp [spelled, blank]

theorem isOrderly_block {stmts : List Tree} (h : ∀ stmt ∈ stmts, stmt.isOrderly = true) :
    (block stmts).isOrderly = true := by
  refine isOrderly_node (isOrderlyAll_separated ?_ ?_ h) (Or.inl rfl)
  · intro rest
    exact isLedAll_token (by decide) rest
  · intro rest
    simp [newline]

theorem isOrderly_declaredName (text : String) : (declaredName text).isOrderly = true := rfl

theorem isOrderlyAll_names (names : List String) :
    isOrderlyAll (withCommas (names.map declaredName)) = true := by
  apply isOrderlyAll_withCommas
  intro item hitem
  obtain ⟨name, -, rfl⟩ := List.mem_map.1 hitem
  exact isOrderly_declaredName name

/-- Parts between an opening and a closing mark. -/
theorem isOrderlyAll_enclosed {first last : Kind} (h : last.spelling?.isSome = true)
    (items : List Tree) (hitems : isOrderlyAll items = true) :
    isOrderlyAll (spelled first :: (items ++ [spelled last])) = true := by
  rw [spelled, isOrderlyAll_token]
  exact isOrderlyAll_append hitems (by simp [spelled]) (isLedAll_token (width_spelled h) [])

theorem isOrderly_argList {args : List Tree} (h : ∀ arg ∈ args, arg.isOrderly = true) :
    (argList args).isOrderly = true :=
  isOrderly_node (isOrderlyAll_enclosed rfl _ (isOrderlyAll_withCommas h)) (Or.inl rfl)

theorem width_argList (args : List Tree) : 0 < (argList args).width :=
  width_pos_of_mem List.mem_cons_self (width_spelled rfl)

theorem isCovered_argList (args : List Tree) : (argList args).isCovered = false :=
  isCoveredAll_of_mem _ List.mem_cons_self (width_spelled rfl) rfl

theorem isLedAll_argList (args : List Tree) : isLedAll [argList args] = true :=
  isLedAll_cons (isLed_node rfl (isLedAll_token (by decide) _)) (width_argList args) []

theorem isOrderly_funcBody (params : List String) {stmts : List Tree}
    (h : ∀ stmt ∈ stmts, stmt.isOrderly = true) : (funcBody params stmts).isOrderly = true := by
  refine isOrderly_node (isOrderlyAll_cons ?_ ?_ ?_) (Or.inl rfl)
  · exact isOrderly_node (isOrderlyAll_enclosed rfl _ (isOrderlyAll_names params)) (Or.inl rfl)
  · rw [blank, isOrderlyAll_token]
    exact isOrderlyAll_cons (isOrderly_block h) (by simp [spelled]) (isLedAll_token (by decide) _)
  · exact isLedAll_token (by decide) _

theorem isLedAll_funcBody (params : List String) (stmts : List Tree) :
    isLedAll [funcBody params stmts] = true := by
  have hparams : 0 < (node .paramList
      (spelled .lParen :: (withCommas (params.map declaredName) ++ [spelled .rParen]))).width :=
    width_pos_of_mem List.mem_cons_self (width_spelled rfl)
  refine isLedAll_cons (isLed_node rfl (isLedAll_cons ?_ hparams _)) ?_ []
  · exact isLed_node rfl (isLedAll_token (by decide) _)
  · exact width_pos_of_mem List.mem_cons_self hparams

/-- A keyword, a function body and what stands between them. -/
theorem isOrderlyAll_funcBody (params : List String) {stmts : List Tree}
    (h : ∀ stmt ∈ stmts, stmt.isOrderly = true) : isOrderlyAll [funcBody params stmts] = true :=
  isOrderlyAll_cons (isOrderly_funcBody params h) rfl rfl

/-- The values of a statement, if there are any, after a keyword or mark and a blank. -/
theorem isOrderlyAll_exprList {exprs : List Tree} (h : ∀ e ∈ exprs, e.isOrderly = true) :
    isOrderlyAll [node .exprList (withCommas exprs)] = true :=
  isOrderlyAll_cons (isOrderly_node (isOrderlyAll_withCommas h) (Or.inl rfl)) rfl rfl

end Build

open LuaTypes.Tree Build in
/-- The kinds of a tree made by constructors are known and its expressions told apart. -/
theorem Made.isOrderly {tree : Tree} (h : Made tree) : tree.isOrderly = true := by
  induction h with
  | number text | rawString text | name text =>
    exact isOrderly_node (by simp) (Or.inr (by simp [isCoveredAll, isCovered]))
  | boolean value => cases value <;> rfl
  | nil => rfl
  | paren _ ih =>
    refine isOrderly_node (isOrderlyAll_enclosed rfl [_] ?_) (Or.inr ?_)
    · exact isOrderlyAll_cons ih rfl rfl
    · exact isCoveredAll_of_mem _ List.mem_cons_self (width_spelled rfl) rfl
  | @unary op operand tree _ ok ih =>
    unfold Build.unary at ok
    split at ok
    · next hop =>
      cases ok
      refine isOrderly_node ?_ (Or.inr (isCoveredAll_of_mem _ List.mem_cons_self ?_ rfl))
      · have hoperand := isOrderlyAll_cons ih isOrderlyAll_nil rfl
        by_cases hnot : op = .notKw <;> simp [spelled, blank, hnot, hoperand]
      · exact width_spelled (by cases op <;> first | rfl | cases hop)
    · cases ok
  | @binary lhs op rhs tree _ _ ok ihl ihr =>
    unfold Build.binary at ok
    split at ok
    · cases ok
      refine isOrderly_node (isOrderlyAll_cons ihl ?_ ?_) (Or.inr ?_)
      · simpa [spelled, blank] using isOrderlyAll_cons ihr isOrderlyAll_nil rfl
      · exact isLedAll_cons rfl width_blank _
      · exact isCoveredAll_of_mem blank (by simp) width_blank rfl
    · cases ok
  | @call callee args _ _ ih ihs =>
    refine isOrderly_node (isOrderlyAll_cons ih ?_ (isLedAll_argList args)) (Or.inr ?_)
    · exact isOrderlyAll_cons (isOrderly_argList ihs) rfl rfl
    · exact isCoveredAll_of_mem (argList args) (by simp) (width_argList args)
        (isCovered_argList args)
  | stringCall _ value ih =>
    refine isOrderly_node (isOrderlyAll_cons ih ?_ (isLedAll_cons rfl width_blank _)) (Or.inr ?_)
    · have hvalue : (Build.string value).isOrderly = true :=
        isOrderly_node (by simp) (Or.inr (by simp [isCoveredAll, isCovered]))
      rw [blank, isOrderlyAll_token]
      exact isOrderlyAll_cons
        (isOrderly_node (isOrderlyAll_cons hvalue rfl rfl) (Or.inl rfl)) rfl rfl
    · exact isCoveredAll_of_mem blank (by simp) width_blank rfl
  | field _ name ih =>
    refine isOrderly_node (isOrderlyAll_cons ih (by simp [spelled]) ?_) (Or.inr ?_)
    · exact isLedAll_cons rfl (width_spelled rfl) _
    · exact isCoveredAll_of_mem (spelled .dot) (by simp) (width_spelled rfl) rfl
  | method _ name ih =>
    refine isOrderly_node (isOrderlyAll_cons ih (by simp [spelled]) ?_) (Or.inr ?_)
    · exact isLedAll_cons rfl (width_spelled rfl) _
    · exact isCoveredAll_of_mem (spelled .colon) (by simp) (width_spelled rfl) rfl
  | index _ _ ihb ihk =>
    refine isOrderly_node (isOrderlyAll_cons ihb ?_ ?_) (Or.inr ?_)
    · exact isOrderlyAll_enclosed rfl [_] (isOrderlyAll_cons ihk rfl rfl)
    · exact isLedAll_cons rfl (width_spelled rfl) _
    · exact isCoveredAll_of_mem (spelled .lBracket) (by simp) (width_spelled rfl) rfl
  | closure params _ ihs =>
    refine isOrderly_node ?_ (Or.inr ?_)
    · simpa [spelled] using isOrderlyAll_funcBody params ihs
    · exact isCoveredAll_of_mem _ List.mem_cons_self (width_spelled rfl) rfl
  | table _ ihs =>
    refine isOrderly_node (isOrderlyAll_enclosed rfl _ (isOrderlyAll_withCommas ihs)) (Or.inr ?_)
    exact isCoveredAll_of_mem _ List.mem_cons_self (width_spelled rfl) rfl
  | @localStmt names exprs _ ihs =>
    refine isOrderly_node ?_ (Or.inl rfl)
    have hnames : (node .nameList (withCommas (names.map declaredName))).isOrderly = true :=
      isOrderly_node (isOrderlyAll_names names) (Or.inl rfl)
    have hvalues := isOrderlyAll_exprList ihs
    simp only [spelled, blank, List.cons_append, List.nil_append, isOrderlyAll_token]
    split
    · exact isOrderlyAll_cons hnames rfl rfl
    · exact isOrderlyAll_cons hnames (by simpa using hvalues) (isLedAll_token (by decide) _)
  | localFunction name params _ ihs =>
    refine isOrderly_node ?_ (Or.inl rfl)
    simp only [spelled, blank, isOrderlyAll_token]
    exact isOrderlyAll_cons (isOrderly_declaredName name) (isOrderlyAll_funcBody params ihs)
      (isLedAll_funcBody params _)
  | functionStmt _ params _ ih ihs =>
    refine isOrderly_node ?_ (Or.inl rfl)
    simp only [spelled, blank, isOrderlyAll_token]
    exact isOrderlyAll_cons ih (isOrderlyAll_funcBody params ihs) (isLedAll_funcBody params _)
  | returnStmt _ ihs =>
    refine isOrderly_node ?_ (Or.inl rfl)
    have hvalues := isOrderlyAll_exprList ihs
    rw [spelled, isOrderlyAll_token]
    split
    · rfl
    · simpa [blank] using hvalues
  | callStmt _ ih => exact isOrderly_node (isOrderlyAll_cons ih rfl rfl) (Or.inl rfl)
  | sourceFile _ ihs =>
    exact isOrderly_node (isOrderlyAll_cons (isOrderly_block ihs) rfl rfl) (Or.inl rfl)

/-- Every node of a tree of known kinds is of a known kind. -/
theorem Tree.exists_kind {tree : Tree} (h : tree.isKnown = true) {node : Node}
    (hnode : node ∈ tree.nodes) : ∃ kind, node.label = .known kind := by
  rw [Tree.nodes_eq] at hnode
  exact Tree.exists_kind_of_isKnown tree h hnode

namespace Made

variable {tree : Tree}

theorem isKnown (h : Made tree) : tree.isKnown = true := by
  have horderly := h.isOrderly
  simp only [Tree.isOrderly, Bool.and_eq_true] at horderly
  exact horderly.1

theorem isSpread (h : Made tree) : tree.isSpread = true := by
  have horderly := h.isOrderly
  simp only [Tree.isOrderly, Bool.and_eq_true] at horderly
  exact horderly.2

/-- Two expressions of a tree made by constructors that cover the same bytes are one. -/
theorem eq_of_span (h : Made tree) {a b : Expr} (ha : a.node ∈ tree.nodes)
    (hb : b.node ∈ tree.nodes) (hspan : a.node.span = b.node.span) : a = b :=
  Expr.ext_node (Tree.eq_of_span h.isSpread ha hb a.isExpr_node b.isExpr_node hspan)

end Made

end LuaTypes
