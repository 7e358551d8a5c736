import LuaTypes.Proofs.Tree.Nodes
import LuaTypes.Tree.Expression
import Mathlib.Data.List.Nodup

/-!
# Spans of expressions

An expression is named by its kind and by the bytes that it covers. That names it well where every
expression has a token of its own around the expressions inside it, and a token stands before each
expression that follows another one. Both can be seen from the widths of a tree's parts
(`Tree.isSpread`), and then no two expressions of the tree cover the same bytes
(`Tree.nodup_spans`).
-/

namespace LuaTypes

/-- Whether nodes with this label are expressions. -/
def Label.isExpr : Label → Bool
  | .known kind => kind.form?.isSome
  | .foreign _ => false

namespace Node

/-- The first byte of a node and its length. -/
def span (node : Node) : Nat × Nat := (node.start, node.width)

/-- Whether a node is an expression. -/
def isExpr (node : Node) : Bool := node.label.isExpr

end Node

theorem Expr.isExpr_node (e : Expr) : e.node.isExpr = true := by
  simp [Node.isExpr, e.labelled, Label.isExpr, Kind.form?_eq_some_iff.2 rfl]

namespace Tree

mutual

/-- Whether an expression occurs in a tree. -/
def hasExpr : Tree → Bool
  | .node label content => label.isExpr || hasExprAll content
  | .token .. => false

/-- Whether an expression occurs in a list of trees. -/
def hasExprAll : List Tree → Bool
  | [] => false
  | tree :: rest => tree.hasExpr || hasExprAll rest

end

mutual

/-- Whether every expression in a tree comes after the tree's first byte. -/
def isLed : Tree → Bool
  | .node label content => !label.isExpr && isLedAll content
  | .token .. => true

/-- Whether every expression in a list of trees comes after the first byte of the list. -/
def isLedAll : List Tree → Bool
  | [] => true
  | tree :: rest => tree.isLed && (decide (0 < tree.width) || isLedAll rest)

end

mutual

/-- Whether an expression may cover all bytes of a tree. -/
def isCovered : Tree → Bool
  | .node label content => label.isExpr || isCoveredAll content
  | .token .. => false

/-- Whether an expression may cover all bytes of a list of trees. -/
def isCoveredAll : List Tree → Bool
  | [] => false
  | tree :: rest =>
    (tree.isCovered && decide (widthAll rest = 0)) || (decide (tree.width = 0) && isCoveredAll rest)

end

mutual

/-- Whether the widths of a tree's parts tell its expressions apart. -/
def isSpread : Tree → Bool
  | .node label content => isSpreadAll content && !(label.isExpr && isCoveredAll content)
  | .token .. => true

/-- Whether the widths of trees that stand side by side tell their expressions apart. -/
def isSpreadAll : List Tree → Bool
  | [] => true
  | tree :: rest => tree.isSpread && isSpreadAll rest && (!tree.hasExpr || isLedAll rest)

end

end Tree

namespace Node

mutual

/-- A node lies within the tree in which it is listed. -/
theorem bounds_preorderAt {above : List Site} {start index : Nat} {node : Node} : ∀ tree : Tree,
    node ∈ preorderAt above start index tree →
      start ≤ node.start ∧ node.start + node.width ≤ start + tree.width
  | .token .., h => by cases h
  | .node label content, h => by
    rcases List.mem_cons.1 h with rfl | h
    · exact ⟨Nat.le_refl _, Nat.le_refl _⟩
    · exact bounds_preorderFrom content h

theorem bounds_preorderFrom {above : List Site} {start index : Nat} {node : Node} :
    ∀ trees : List Tree, node ∈ preorderFrom above start index trees →
      start ≤ node.start ∧ node.start + node.width ≤ start + Tree.widthAll trees
  | [], h => by cases h
  | tree :: rest, h => by
    simp only [Tree.widthAll]
    rcases List.mem_append.1 h with h | h
    · have := bounds_preorderAt tree h
      omega
    · have := bounds_preorderFrom rest h
      omega

end

mutual

theorem hasExpr_of_mem {above : List Site} {start index : Nat} {node : Node}
    (hexpr : node.isExpr = true) : ∀ tree : Tree, node ∈ preorderAt above start index tree →
      tree.hasExpr = true
  | .token .., h => by cases h
  | .node label content, h => by
    simp only [Tree.hasExpr, Bool.or_eq_true]
    rcases List.mem_cons.1 h with rfl | h
    · exact Or.inl hexpr
    · exact Or.inr (hasExprAll_of_mem hexpr content h)

theorem hasExprAll_of_mem {above : List Site} {start index : Nat} {node : Node}
    (hexpr : node.isExpr = true) : ∀ trees : List Tree,
      node ∈ preorderFrom above start index trees → Tree.hasExprAll trees = true
  | [], h => by cases h
  | tree :: rest, h => by
    simp only [Tree.hasExprAll, Bool.or_eq_true]
    rcases List.mem_append.1 h with h | h
    · exact Or.inl (hasExpr_of_mem hexpr tree h)
    · exact Or.inr (hasExprAll_of_mem hexpr rest h)

end

mutual

theorem start_lt_of_isLed {above : List Site} {start index : Nat} {node : Node}
    (hexpr : node.isExpr = true) : ∀ tree : Tree, tree.isLed = true →
      node ∈ preorderAt above start index tree → start < node.start
  | .token .., _, h => by cases h
  | .node label content, hled, h => by
    simp only [Tree.isLed, Bool.and_eq_true] at hled
    rcases List.mem_cons.1 h with rfl | h
    · have hnot := hled.1
      rw [show label.isExpr = true from hexpr] at hnot
      cases hnot
    · exact start_lt_of_isLedAll hexpr content hled.2 h

theorem start_lt_of_isLedAll {above : List Site} {start index : Nat} {node : Node}
    (hexpr : node.isExpr = true) : ∀ trees : List Tree, Tree.isLedAll trees = true →
      node ∈ preorderFrom above start index trees → start < node.start
  | [], _, h => by cases h
  | tree :: rest, hled, h => by
    simp only [Tree.isLedAll, Bool.and_eq_true, Bool.or_eq_true, decide_eq_true_eq] at hled
    rcases List.mem_append.1 h with h | h
    · exact start_lt_of_isLed hexpr tree hled.1 h
    · rcases hled.2 with hpos | hrest
      · have := bounds_preorderFrom rest h
        omega
      · have := start_lt_of_isLedAll hexpr rest hrest h
        omega

end

mutual

theorem isCovered_of_span {above : List Site} {start index : Nat} {node : Node}
    (hexpr : node.isExpr = true) : ∀ tree : Tree, node ∈ preorderAt above start index tree →
      node.width = tree.width → tree.isCovered = true
  | .token .., h, _ => by cases h
  | .node label content, h, hwidth => by
    simp only [Tree.isCovered, Bool.or_eq_true]
    rcases List.mem_cons.1 h with rfl | h
    · exact Or.inl hexpr
    · exact Or.inr (isCoveredAll_of_span hexpr content h hwidth)

theorem isCoveredAll_of_span {above : List Site} {start index : Nat} {node : Node}
    (hexpr : node.isExpr = true) : ∀ trees : List Tree,
      node ∈ preorderFrom above start index trees →
      node.width = Tree.widthAll trees → Tree.isCoveredAll trees = true
  | [], h, _ => by cases h
  | tree :: rest, h, hwidth => by
    simp only [Tree.isCoveredAll, Bool.or_eq_true, Bool.and_eq_true, decide_eq_true_eq]
    simp only [Tree.widthAll] at hwidth
    rcases List.mem_append.1 h with h | h
    · have := bounds_preorderAt tree h
      exact Or.inl ⟨isCovered_of_span hexpr tree h (by omega), by omega⟩
    · have := bounds_preorderFrom rest h
      exact Or.inr ⟨by omega, isCoveredAll_of_span hexpr rest h (by omega)⟩

end

mutual

theorem nodup_spansAt (above : List Site) (start index : Nat) : ∀ tree : Tree,
    tree.isSpread = true → (((preorderAt above start index tree).filter isExpr).map span).Nodup
  | .token .., _ => by simp [preorderAt]
  | .node label content, hspread => by
    simp only [Tree.isSpread, Bool.and_eq_true, Bool.not_eq_true', Bool.and_eq_false_iff] at hspread
    have hbelow := nodup_spansFrom (⟨label, content, start, index⟩ :: above) start 0
      content hspread.1
    simp only [preorderAt, List.filter_cons]
    split
    · next hexpr =>
      rw [List.map_cons, List.nodup_cons]
      refine ⟨?_, hbelow⟩
      intro hmem
      obtain ⟨node, hnode, hspan⟩ := List.mem_map.1 hmem
      obtain ⟨hnode, hnodeExpr⟩ := List.mem_filter.1 hnode
      have hwidth : node.width = Tree.widthAll content := congrArg Prod.snd hspan
      have hcovered := isCoveredAll_of_span hnodeExpr content hnode hwidth
      rcases hspread.2 with hno | hno
      · rw [show label.isExpr = true from hexpr] at hno
        cases hno
      · rw [hcovered] at hno
        cases hno
    · exact hbelow

theorem nodup_spansFrom (above : List Site) (start index : Nat) : ∀ trees : List Tree,
    Tree.isSpreadAll trees = true →
      (((preorderFrom above start index trees).filter isExpr).map span).Nodup
  | [], _ => by simp [preorderFrom]
  | tree :: rest, hspread => by
    simp only [Tree.isSpreadAll, Bool.and_eq_true, Bool.or_eq_true, Bool.not_eq_true'] at hspread
    simp only [preorderFrom, List.filter_append, List.map_append]
    rw [List.nodup_append]
    refine ⟨nodup_spansAt above start index tree hspread.1.1,
      nodup_spansFrom above _ _ rest hspread.1.2, ?_⟩
    intro a ha b hb hab
    obtain ⟨node, hnode, rfl⟩ := List.mem_map.1 ha
    obtain ⟨other, hother, rfl⟩ := List.mem_map.1 hb
    obtain ⟨hnode, hexpr⟩ := List.mem_filter.1 hnode
    obtain ⟨hother, hotherExpr⟩ := List.mem_filter.1 hother
    have hstart : node.start = other.start := congrArg Prod.fst hab
    rcases hspread.2 with hno | hled
    · rw [hasExpr_of_mem hexpr tree hnode] at hno
      cases hno
    · have := start_lt_of_isLedAll hotherExpr rest hled hother
      have := bounds_preorderAt tree hnode
      omega

end

end Node

/-- Where the widths of the parts tell expressions apart, no two of them cover the same bytes. -/
theorem Tree.nodup_spans {tree : Tree} (h : tree.isSpread = true) :
    ((tree.nodes.filter Node.isExpr).map Node.span).Nodup := by
  rw [Tree.nodes_eq]
  exact Node.nodup_spansAt [] 0 0 tree h

theorem Tree.eq_of_span {tree : Tree} (h : tree.isSpread = true) {a b : Node}
    (ha : a ∈ tree.nodes) (hb : b ∈ tree.nodes) (haExpr : a.isExpr = true)
    (hbExpr : b.isExpr = true) (hspan : a.span = b.span) : a = b :=
  List.inj_on_of_nodup_map (nodup_spans h) (List.mem_filter.2 ⟨ha, haExpr⟩)
    (List.mem_filter.2 ⟨hb, hbExpr⟩) hspan

end LuaTypes
