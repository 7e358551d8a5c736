import LuaTypes.Proofs.Tree.Reading
import LuaTypes.Tree.Build

/-!
# Reading by shape

What is read of a node depends on the tree that it stands for, wherever it stands: parts are found
among the trees below it by kind and position. So a reading of nodes is a search among trees.

* `Node.tree`, `Expr.tree`: the tree of a node or an expression; `GivesPart`, `GivesParts`: what a
  reading gives has these trees;
* `Tree.isExpr`, `Tree.isStmt`, `Tree.isOfKind`: what readings look for; `Tree.isLegible`: trees
  that can be stepped over;
* `Looks`: looking at a node is a test of its tree; `Looks.firstHit`, `Looks.hits`, `Looks.hitAt`;
* `Node.HasParts`: the trees directly below a node; `Node.HasParts.firstExpr`,
  `Node.HasParts.childOfKind` and their like: what is found among them is read.
-/

namespace LuaTypes

/-- The tree of a node, without its place. -/
def Node.tree (node : Node) : Tree := .node node.label node.content

theorem Node.tree_of_root? {tree : Tree} {node : Node} (h : root? tree = some node) :
    node.tree = tree := by
  cases tree with
  | token => cases h
  | node label content =>
    cases h
    rfl

/-- The tree of an expression, without its place. -/
def Expr.tree (e : Expr) : Tree := e.node.tree

/-- A reading gives a part with a tree. -/
def GivesPart {α : Type} (treeOf : α → Tree) (reading : Reading (Option α)) (tree : Tree) : Prop :=
  ∃ a, reading = .ok (some a) ∧ treeOf a = tree

/-- A reading gives parts with these trees, in order. -/
def GivesParts {α : Type} (treeOf : α → Tree) (reading : Reading (List α)) (trees : List Tree) :
    Prop :=
  ∃ as, reading = .ok as ∧ as.map treeOf = trees

theorem GivesPart.of_found {α : Type} {treeOf : α → Tree} {reading : Reading (Option α)}
    {wanted : Option Tree} {tree : Tree}
    (h : ∃ found, reading = .ok found ∧ found.map treeOf = wanted) (htree : wanted = some tree) :
    GivesPart treeOf reading tree := by
  obtain ⟨found, hfound, hmap⟩ := h
  obtain ⟨a, rfl, ha⟩ := Option.map_eq_some_iff.1 (hmap.trans htree)
  exact ⟨a, hfound, ha⟩

namespace Tree

/-- The kind of an inner node, if it is known. -/
def kind? : Tree → Option Kind
  | .node (.known kind) _ => some kind
  | _ => none

/-- Whether a tree is an inner node. -/
def isNode : Tree → Bool
  | .node .. => true
  | .token .. => false

/-- Whether a tree can be stepped over: a token, or an inner node of a known kind. -/
def isLegible : Tree → Bool
  | .node (.foreign _) _ => false
  | _ => true

/-- Whether a tree is an inner node of a kind. -/
def isOfKind (kind : Kind) (tree : Tree) : Bool := tree.kind? == some kind

/-- Whether a tree is an expression. -/
def isExpr : Tree → Bool
  | .node label _ => label.isExpr
  | .token .. => false

/-- Whether a tree is a statement. -/
def isStmt (tree : Tree) : Bool := tree.kind?.any Kind.isStmt

@[simp] theorem kind?_token (kind : Kind) (text : String) : (token kind text).kind? = none := rfl

@[simp] theorem isLegible_token (kind : Kind) (text : String) :
    (token kind text).isLegible = true := rfl

theorem isLegible_of_kind? {tree : Tree} {kind : Kind} (h : tree.kind? = some kind) :
    tree.isLegible = true := by
  unfold kind? at h
  split at h
  · rfl
  · cases h

theorem isNode_of_kind? {tree : Tree} {kind : Kind} (h : tree.kind? = some kind) :
    tree.isNode = true := by
  unfold kind? at h
  split at h
  · rfl
  · cases h

theorem isExpr_iff {tree : Tree} :
    tree.isExpr = true ↔ ∃ form : Form, tree.kind? = some form.kind := by
  cases tree with
  | token => simp [isExpr]
  | node label content =>
    cases label with
    | foreign => simp [isExpr, Label.isExpr, kind?]
    | known kind =>
      simp [isExpr, Label.isExpr, kind?, Option.isSome_iff_exists, Kind.form?_eq_some_iff]

theorem isLegible_of_isExpr {tree : Tree} (h : tree.isExpr = true) : tree.isLegible = true := by
  obtain ⟨form, hkind⟩ := isExpr_iff.1 h
  exact isLegible_of_kind? hkind

theorem isLegible_of_not_isNode {tree : Tree} (h : tree.isNode = false) :
    tree.isLegible = true := by
  cases tree with
  | node => cases h
  | token => rfl

theorem isNode_of_isExpr {tree : Tree} (h : tree.isExpr = true) : tree.isNode = true := by
  obtain ⟨form, hkind⟩ := isExpr_iff.1 h
  exact isNode_of_kind? hkind

theorem isNode_of_isOfKind {kind : Kind} {tree : Tree} (h : tree.isOfKind kind = true) :
    tree.isNode = true :=
  isNode_of_kind? (beq_iff_eq.1 h)

theorem isNode_of_isStmt {tree : Tree} (h : tree.isStmt = true) : tree.isNode = true := by
  obtain ⟨kind, hkind, -⟩ := (Option.any_eq_true _ _).1 h
  exact isNode_of_kind? hkind

theorem isLegible_of_isStmt {tree : Tree} (h : tree.isStmt = true) : tree.isLegible = true := by
  obtain ⟨kind, hkind, -⟩ := (Option.any_eq_true _ _).1 h
  exact isLegible_of_kind? hkind

/-- An expression is of no kind that marks no expressions. -/
theorem isOfKind_of_isExpr {tree : Tree} (h : tree.isExpr = true) {kind : Kind}
    (hform : kind.form? = none) : tree.isOfKind kind = false := by
  obtain ⟨form, hkind⟩ := isExpr_iff.1 h
  rw [isOfKind, hkind, beq_eq_false_iff_ne]
  intro heq
  rw [Kind.form?_eq_some_iff.2 (Option.some.inj heq).symm] at hform
  cases hform

end Tree

/-! ### Looking at nodes is testing trees -/

namespace Node

theorem map_tree_siblings (above : List Site) (start index : Nat) (trees : List Tree) :
    (siblings above start index trees).map tree = trees.filter Tree.isNode := by
  induction trees generalizing start index with
  | nil => rfl
  | cons tree rest ih =>
    cases tree with
    | token => exact ih _ _
    | node => exact congrArg (_ :: ·) (ih _ _)

theorem map_tree_children (node : Node) :
    node.children.map tree = node.content.filter Tree.isNode :=
  map_tree_siblings _ _ _ _

end Node

/-- Looking at a legible node gives something with the node's tree if the tree passes a test, and
nothing otherwise. -/
structure Looks {β : Type} (look : Node → Reading (Option β)) (test : Tree → Bool)
    (treeOf : β → Tree) : Prop where
  hit : ∀ node : Node, node.tree.isLegible = true → test node.tree = true →
    ∃ b, look node = .ok (some b) ∧ treeOf b = node.tree
  miss : ∀ node : Node, node.tree.isLegible = true → test node.tree = false → look node = .ok none

namespace Looks

variable {β : Type} {look : Node → Reading (Option β)} {test : Tree → Bool} {treeOf : β → Tree}

theorem hits (h : Looks look test treeOf) {nodes : List Node}
    (hlegible : ∀ node ∈ nodes, node.tree.isLegible = true) :
    GivesParts treeOf (LuaTypes.hits look nodes) ((nodes.map Node.tree).filter test) := by
  induction nodes with
  | nil => exact ⟨[], rfl, rfl⟩
  | cons node rest ih =>
    obtain ⟨hnode, hrest⟩ := List.forall_mem_cons.1 hlegible
    obtain ⟨bs, hbs, htrees⟩ := ih hrest
    simp only [LuaTypes.hits, List.map_cons, List.filter_cons]
    cases htest : test node.tree with
    | false => exact ⟨bs, by rw [h.miss node hnode htest]; exact hbs, htrees⟩
    | true =>
      obtain ⟨b, hb, htree⟩ := h.hit node hnode htest
      exact ⟨b :: bs, by rw [hb, hbs]; rfl, by rw [List.map_cons, htree, htrees]; rfl⟩

theorem hitAt (h : Looks look test treeOf) {nodes : List Node}
    (hlegible : ∀ node ∈ nodes, node.tree.isLegible = true) (index : Nat) :
    ∃ found, LuaTypes.hitAt look index nodes = .ok found ∧
      found.map treeOf = ((nodes.map Node.tree).filter test)[index]? := by
  induction nodes generalizing index with
  | nil => exact ⟨none, rfl, rfl⟩
  | cons node rest ih =>
    obtain ⟨hnode, hrest⟩ := List.forall_mem_cons.1 hlegible
    simp only [LuaTypes.hitAt, List.map_cons, List.filter_cons]
    cases htest : test node.tree with
    | false =>
      rw [h.miss node hnode htest]
      exact ih hrest index
    | true =>
      obtain ⟨b, hb, htree⟩ := h.hit node hnode htest
      rw [hb]
      cases index with
      | zero => exact ⟨some b, rfl, by simp [htree]⟩
      | succ index => simpa using ih hrest index

theorem firstHit (h : Looks look test treeOf) {nodes : List Node}
    (hlegible : ∀ node ∈ nodes, node.tree.isLegible = true) :
    ∃ found, LuaTypes.firstHit look nodes = .ok found ∧
      found.map treeOf = (nodes.map Node.tree).find? test := by
  induction nodes with
  | nil => exact ⟨none, rfl, rfl⟩
  | cons node rest ih =>
    obtain ⟨hnode, hrest⟩ := List.forall_mem_cons.1 hlegible
    simp only [LuaTypes.firstHit, List.map_cons, List.find?_cons]
    cases htest : test node.tree with
    | false =>
      rw [h.miss node hnode htest]
      exact ih hrest
    | true =>
      obtain ⟨b, hb, htree⟩ := h.hit node hnode htest
      exact ⟨some b, by rw [hb], by simp [htree]⟩

end Looks

/-! ### What readings look for -/

namespace Node

variable {node : Node}

theorem exists_label (h : node.tree.isLegible = true) : ∃ kind, node.label = .known kind := by
  cases hlabel : node.label with
  | known kind => exact ⟨kind, rfl⟩
  | foreign code => simp [tree, hlabel, Tree.isLegible] at h

theorem kind?_tree {kind : Kind} (h : node.label = .known kind) : node.tree.kind? = some kind := by
  rw [tree, h, Tree.kind?]

theorem label_of_kind? {kind : Kind} (h : node.tree.kind? = some kind) :
    node.label = .known kind := by
  obtain ⟨kind', hlabel⟩ := exists_label (Tree.isLegible_of_kind? h)
  rw [hlabel, ← Option.some.inj (h.symm.trans (kind?_tree hlabel))]

theorem looks_expr? : Looks expr? Tree.isExpr Expr.tree where
  hit node _ htest := by
    obtain ⟨form, hkind⟩ := Tree.isExpr_iff.1 htest
    exact ⟨_, expr?_of_label (label_of_kind? hkind), rfl⟩
  miss node hlegible htest := by
    obtain ⟨kind, hlabel⟩ := exists_label hlegible
    refine expr?_of_form_none hlabel ?_
    simpa [tree, Tree.isExpr, Label.isExpr, hlabel] using htest

theorem looks_ofKind? (kind : Kind) : Looks (ofKind? kind) (Tree.isOfKind kind) Node.tree where
  hit node _ htest := by
    have hlabel := label_of_kind? (beq_iff_eq.1 htest)
    exact ⟨node, by simp [ofKind?, Node.kind, hlabel, Except.map], rfl⟩
  miss node hlegible htest := by
    obtain ⟨kind', hlabel⟩ := exists_label hlegible
    have hne : kind' ≠ kind := by simpa [Tree.isOfKind, kind?_tree hlabel] using htest
    simp [ofKind?, Node.kind, hlabel, Except.map, hne]

theorem stmt?_of_isStmt (h : node.tree.isStmt = true) : node.stmt? = .ok (some node) := by
  obtain ⟨kind, hlabel⟩ := exists_label (Tree.isLegible_of_isStmt h)
  have hstmt : kind.isStmt = true := by simpa [Tree.isStmt, kind?_tree hlabel] using h
  simp [stmt?, Node.kind, hlabel, Except.map, hstmt]

theorem looks_stmt? : Looks stmt? Tree.isStmt Node.tree where
  hit node _ htest := ⟨node, stmt?_of_isStmt htest, rfl⟩
  miss node hlegible htest := by
    obtain ⟨kind, hlabel⟩ := exists_label hlegible
    have hstmt : kind.isStmt = false := by simpa [Tree.isStmt, kind?_tree hlabel] using htest
    simp [stmt?, Node.kind, hlabel, Except.map, hstmt]

/-! ### Parts -/

/-- The trees directly below a node, all of which can be stepped over. -/
def HasParts (node : Node) (parts : List Tree) : Prop :=
  node.content = parts ∧ ∀ part ∈ parts, part.isLegible = true

namespace HasParts

variable {parts : List Tree}

theorem legible (h : node.HasParts parts) :
    ∀ child ∈ node.children, child.tree.isLegible = true := by
  intro child hchild
  have hmem : child.tree ∈ node.content.filter Tree.isNode := by
    rw [← map_tree_children]
    exact List.mem_map_of_mem hchild
  exact h.2 _ (h.1 ▸ (List.mem_filter.1 hmem).1)

theorem filter_children (h : node.HasParts parts) {test : Tree → Bool}
    (htest : ∀ part : Tree, test part = true → part.isNode = true) :
    (node.children.map tree).filter test = parts.filter test := by
  rw [map_tree_children, h.1, List.filter_filter]
  refine List.filter_congr fun part _ => ?_
  cases hpart : test part with
  | false => rfl
  | true => simp [htest part hpart]

theorem find?_children (h : node.HasParts parts) {test : Tree → Bool}
    (htest : ∀ part : Tree, test part = true → part.isNode = true) :
    (node.children.map tree).find? test = parts.find? test := by
  rw [← List.head?_filter, h.filter_children htest, List.head?_filter]

theorem firstExpr (h : node.HasParts parts) {part : Tree}
    (hpart : parts.find? Tree.isExpr = some part) : GivesPart Expr.tree node.firstExpr part := by
  apply GivesPart.of_found _ hpart
  rw [← h.find?_children fun _ => Tree.isNode_of_isExpr]
  exact looks_expr?.firstHit h.legible

theorem exists_secondExpr (h : node.HasParts parts) :
    ∃ found, node.secondExpr = .ok found ∧
      found.map Expr.tree = (parts.filter Tree.isExpr)[1]? := by
  rw [← h.filter_children fun _ => Tree.isNode_of_isExpr]
  exact looks_expr?.hitAt h.legible 1

theorem secondExpr (h : node.HasParts parts) {part : Tree}
    (hpart : (parts.filter Tree.isExpr)[1]? = some part) :
    GivesPart Expr.tree node.secondExpr part :=
  .of_found h.exists_secondExpr hpart

theorem secondExpr_eq_none (h : node.HasParts parts)
    (hnone : (parts.filter Tree.isExpr)[1]? = none) : node.secondExpr = .ok none := by
  obtain ⟨found, hfound, htree⟩ := h.exists_secondExpr
  rw [hfound, Option.map_eq_none_iff.1 (htree.trans hnone)]

theorem exprs (h : node.HasParts parts) :
    GivesParts Expr.tree node.exprs (parts.filter Tree.isExpr) := by
  rw [← h.filter_children fun _ => Tree.isNode_of_isExpr]
  exact looks_expr?.hits h.legible

theorem exists_childOfKind (h : node.HasParts parts) (kind : Kind) :
    ∃ found, node.childOfKind kind = .ok found ∧
      found.map tree = parts.find? (Tree.isOfKind kind) := by
  rw [← h.find?_children fun _ => Tree.isNode_of_isOfKind]
  exact (looks_ofKind? kind).firstHit h.legible

theorem childOfKind (h : node.HasParts parts) {kind : Kind} {part : Tree}
    (hpart : parts.find? (Tree.isOfKind kind) = some part) :
    GivesPart Node.tree (node.childOfKind kind) part :=
  .of_found (h.exists_childOfKind kind) hpart

theorem childOfKind_eq_none (h : node.HasParts parts) {kind : Kind}
    (hnone : parts.find? (Tree.isOfKind kind) = none) : node.childOfKind kind = .ok none := by
  obtain ⟨found, hfound, htree⟩ := h.exists_childOfKind kind
  rw [hfound, Option.map_eq_none_iff.1 (htree.trans hnone)]

theorem childrenOfKind (h : node.HasParts parts) (kind : Kind) :
    GivesParts Node.tree (node.childrenOfKind kind) (parts.filter (Tree.isOfKind kind)) := by
  rw [← h.filter_children fun _ => Tree.isNode_of_isOfKind]
  exact (looks_ofKind? kind).hits h.legible

theorem stmts (h : node.HasParts parts) :
    GivesParts Node.tree (Block.stmts node) (parts.filter Tree.isStmt) := by
  rw [← h.filter_children fun _ => Tree.isNode_of_isStmt]
  exact looks_stmt?.hits h.legible

end HasParts

end Node

namespace Expr

theorem form_of_kind? {e : Expr} {form : Form} (h : e.tree.kind? = some form.kind) :
    e.form = form := by
  have hkind : some e.form.kind = some form.kind := (Node.kind?_tree e.labelled).symm.trans h
  exact Option.some.inj ((Kind.form?_eq_some_iff.2 rfl).symm.trans
    (Kind.form?_eq_some_iff.2 (Option.some.inj hkind)))

theorem text_tree (e : Expr) : e.tree.text = e.text := rfl

end Expr

end LuaTypes
