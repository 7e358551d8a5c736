import LuaTypes.Tree.Node
import Mathlib.Data.List.Nodup

/-!
# The nodes of a tree

The list of a tree's nodes is closed under every step that reading a tree takes: to what lies below
a node, its children among it, and to what lies above it, its parent among it.

* `Node.induction`: what holds of a node whenever it holds of its children holds of every node;
* `Node.preorder_subset`: what lies below a listed node is listed;
* `Tree.preorder_mem_nodes`, `Tree.ancestors_mem_nodes`: the nodes of a tree are closed under both;
* `Tree.length_nodes`: a tree has as many nodes as are counted;
* `Tree.nodup_places`: places tell the nodes of a tree apart.
-/

namespace LuaTypes

namespace Node

theorem nodeCountAll_of_mem_siblings {above : List Site} {start index : Nat} {trees : List Tree}
    {node : Node} (h : node ∈ siblings above start index trees) :
    Tree.nodeCountAll node.content < Tree.nodeCountAll trees := by
  induction trees generalizing start index with
  | nil => cases h
  | cons tree rest ih =>
    cases tree with
    | token kind text =>
      have hrest := ih h
      simpa [Tree.nodeCountAll, Tree.nodeCount] using hrest
    | node label content =>
      simp only [Tree.nodeCountAll, Tree.nodeCount]
      rcases List.mem_cons.1 h with rfl | h
      · show Tree.nodeCountAll content < _
        omega
      · have := ih h
        omega

theorem nodeCountAll_of_mem_children {node child : Node} (h : child ∈ node.children) :
    Tree.nodeCountAll child.content < Tree.nodeCountAll node.content :=
  nodeCountAll_of_mem_siblings h

/-- What holds of a node whenever it holds of its children holds of every node. -/
theorem induction {motive : Node → Prop}
    (step : ∀ node, (∀ child ∈ node.children, motive child) → motive node) (node : Node) :
    motive node :=
  step node fun child _ => induction step child
termination_by Tree.nodeCountAll node.content
decreasing_by exact nodeCountAll_of_mem_children ‹_›

theorem above_of_mem_siblings {above : List Site} {start index : Nat} {trees : List Tree}
    {node : Node} (h : node ∈ siblings above start index trees) : node.above = above := by
  induction trees generalizing start index with
  | nil => cases h
  | cons tree rest ih =>
    cases tree with
    | token kind text => exact ih h
    | node label content =>
      rcases List.mem_cons.1 h with rfl | h
      · rfl
      · exact ih h

theorem above_of_mem_children {node child : Node} (h : child ∈ node.children) :
    child.above = node.toSite :: node.above :=
  above_of_mem_siblings h

theorem ancestors_of_mem_children {node child : Node} (h : child ∈ node.children) :
    child.ancestors = child :: node.ancestors := by
  simp [ancestors, above_of_mem_children h, chain]

theorem mem_ancestors_of_parent {node other : Node} (h : node.parent? = some other) :
    other ∈ node.ancestors := by
  unfold parent? at h
  unfold ancestors
  split at h
  · cases h
  · next site above habove =>
    cases h
    simp [habove, chain]

theorem self_mem_preorder (node : Node) : node ∈ node.preorder := List.mem_cons_self

theorem mem_preorder_iff {node other : Node} :
    other ∈ node.preorder ↔ other = node ∨ ∃ child ∈ node.children, other ∈ child.preorder := by
  rw [preorder_eq, List.mem_cons, List.mem_flatMap]

theorem children_subset_preorder (node : Node) : node.children ⊆ node.preorder := by
  intro child h
  rw [mem_preorder_iff]
  exact Or.inr ⟨child, h, child.self_mem_preorder⟩

/-- What lies below a listed node is listed. -/
theorem preorder_subset {node other : Node} (h : other ∈ node.preorder) :
    other.preorder ⊆ node.preorder := by
  induction node using Node.induction with
  | step node ih =>
    rcases mem_preorder_iff.1 h with rfl | ⟨child, hchild, hother⟩
    · exact List.Subset.refl _
    · intro n hn
      rw [mem_preorder_iff]
      exact Or.inr ⟨child, hchild, ih child hchild hother hn⟩

/-- A listed node lies below the one from which the list begins. -/
theorem ancestors_subset {node other : Node} (h : other ∈ node.preorder) :
    other.ancestors ⊆ node.ancestors ++ node.preorder := by
  induction node using Node.induction with
  | step node ih =>
    rcases mem_preorder_iff.1 h with rfl | ⟨child, hchild, hother⟩
    · exact List.subset_append_left _ _
    · intro n hn
      rcases List.mem_append.1 (ih child hchild hother hn) with hn | hn
      · rw [ancestors_of_mem_children hchild] at hn
        rcases List.mem_cons.1 hn with rfl | hn
        · exact List.mem_append_right _ (children_subset_preorder node hchild)
        · exact List.mem_append_left _ hn
      · rw [List.mem_append, mem_preorder_iff]
        exact Or.inr (Or.inr ⟨child, hchild, hn⟩)

mutual

theorem length_preorderAt (above : List Site) (start index : Nat) :
    ∀ tree : Tree, (preorderAt above start index tree).length = tree.nodeCount
  | .token .. => rfl
  | .node label content => by
    simp [preorderAt, Tree.nodeCount, length_preorderFrom _ start 0 content]

theorem length_preorderFrom (above : List Site) (start index : Nat) :
    ∀ trees : List Tree, (preorderFrom above start index trees).length = Tree.nodeCountAll trees
  | [] => rfl
  | tree :: rest => by
    simp [preorderFrom, Tree.nodeCountAll, length_preorderAt above start index tree,
      length_preorderFrom above (start + tree.width) (index + 1) rest]

end

/-! ### Places -/

theorem place_of_mem_children {node child : Node} (h : child ∈ node.children) :
    child.place = child.index :: node.place := by
  simp [place, above_of_mem_children h]

theorem below_eq (node : Node) : node.below = node.children.flatMap preorder := by
  rw [below, preorderFrom_eq, children]

theorem mem_below_iff {node other : Node} :
    other ∈ node.below ↔ ∃ child ∈ node.children, other ∈ child.preorder := by
  rw [below_eq, List.mem_flatMap]

theorem below_subset_preorder (node : Node) : node.below ⊆ node.preorder :=
  List.subset_cons_self _ _

/-- The place of a node begins with the positions that lead to it from a node above. -/
theorem place_suffix_of_mem {node other : Node} (h : other ∈ node.preorder) :
    node.place <:+ other.place := by
  induction node using Node.induction with
  | step node ih =>
    rcases mem_preorder_iff.1 h with rfl | ⟨child, hchild, hother⟩
    · exact List.suffix_refl _
    · have hplace : node.place <:+ child.place := by
        rw [place_of_mem_children hchild]
        exact List.suffix_cons _ _
      exact hplace.trans (ih child hchild hother)

theorem place_length_lt_of_mem_below {node other : Node} (h : other ∈ node.below) :
    node.place.length < other.place.length := by
  obtain ⟨child, hchild, hother⟩ := mem_below_iff.1 h
  have hlen := (place_suffix_of_mem hother).length_le
  rw [place_of_mem_children hchild, List.length_cons] at hlen
  omega

theorem place_suffix_of_mem_chain {above : List Site} {other : Node} (h : other ∈ chain above) :
    other.place <:+ above.map (·.index) := by
  induction above with
  | nil => cases h
  | cons site above ih =>
    rcases List.mem_cons.1 h with rfl | h
    · exact List.suffix_refl _
    · exact (ih h).trans (List.suffix_cons _ _)

theorem place_suffix_of_mem_ancestors {node other : Node} (h : other ∈ node.ancestors) :
    other.place <:+ node.place := by
  rcases List.mem_cons.1 h with rfl | h
  · exact List.suffix_refl _
  · exact (place_suffix_of_mem_chain h).trans (List.suffix_cons _ _)

theorem index_le_of_mem_siblings {above : List Site} {start index : Nat} {trees : List Tree}
    {node : Node} (h : node ∈ siblings above start index trees) : index ≤ node.index := by
  induction trees generalizing start index with
  | nil => cases h
  | cons tree rest ih =>
    cases tree with
    | token kind text => exact Nat.le_of_succ_le (ih h)
    | node label content =>
      rcases List.mem_cons.1 h with rfl | h
      · exact Nat.le_refl _
      · exact Nat.le_of_succ_le (ih h)

theorem pairwise_siblings (above : List Site) (start index : Nat) (trees : List Tree) :
    (siblings above start index trees).Pairwise fun a b => a.index < b.index := by
  induction trees generalizing start index with
  | nil => exact .nil
  | cons tree rest ih =>
    cases tree with
    | token kind text => exact ih _ _
    | node label content =>
      exact .cons (fun other hother => index_le_of_mem_siblings hother) (ih _ _)

/-- No two nodes at or below a node have one place. -/
theorem nodup_places (node : Node) : (node.preorder.map place).Nodup := by
  induction node using Node.induction with
  | step node ih =>
    rw [preorder_eq, List.map_cons, List.map_flatMap, List.nodup_cons, List.nodup_flatMap]
    refine ⟨?_, ih, ?_⟩
    · intro hmem
      obtain ⟨child, hchild, hmem⟩ := List.mem_flatMap.1 hmem
      obtain ⟨other, hother, hplace⟩ := List.mem_map.1 hmem
      have hlt := place_length_lt_of_mem_below (mem_below_iff.2 ⟨child, hchild, hother⟩)
      rw [hplace] at hlt
      omega
    · refine (pairwise_siblings _ _ _ _).imp_of_mem fun {a b} ha hb hlt => ?_
      show List.Disjoint (a.preorder.map place) (b.preorder.map place)
      rw [List.disjoint_left]
      intro p hpa hpb
      obtain ⟨x, hx, rfl⟩ := List.mem_map.1 hpa
      obtain ⟨y, hy, hxy⟩ := List.mem_map.1 hpb
      have hx := place_suffix_of_mem hx
      have hy := place_suffix_of_mem hy
      -- both places end in that of the node, after the position of a child
      rw [place_of_mem_children ha] at hx
      rw [hxy, place_of_mem_children hb] at hy
      have hsuffix := List.suffix_of_suffix_length_le hx hy (by simp)
      have hindex := List.head_eq_of_cons_eq (hsuffix.eq_of_length (by simp))
      omega

end Node

namespace Tree

theorem nodes_eq (tree : Tree) : tree.nodes = Node.preorderAt [] 0 0 tree := by
  cases tree <;> rfl

/-- A tree has as many nodes as are counted. -/
theorem length_nodes (tree : Tree) : tree.nodes.length = tree.nodeCount := by
  rw [nodes_eq, Node.length_preorderAt]

theorem exists_root_of_mem_nodes {tree : Tree} {node : Node} (h : node ∈ tree.nodes) :
    ∃ root, Node.root? tree = some root ∧ tree.nodes = root.preorder := by
  cases tree with
  | token kind text => cases h
  | node label content => exact ⟨_, rfl, rfl⟩

variable {tree : Tree} {node other : Node}

theorem root_mem_nodes {root : Node} (h : Node.root? tree = some root) : root ∈ tree.nodes := by
  simp [nodes, h, Node.self_mem_preorder]

theorem preorder_mem_nodes (h : node ∈ tree.nodes) (hother : other ∈ node.preorder) :
    other ∈ tree.nodes := by
  obtain ⟨root, -, hnodes⟩ := exists_root_of_mem_nodes h
  rw [hnodes] at h ⊢
  exact Node.preorder_subset h hother

theorem ancestors_mem_nodes (h : node ∈ tree.nodes) (hother : other ∈ node.ancestors) :
    other ∈ tree.nodes := by
  obtain ⟨root, hroot, hnodes⟩ := exists_root_of_mem_nodes h
  rw [hnodes] at h ⊢
  have hself : root.ancestors = [root] := by
    cases tree with
    | token kind text => cases hroot
    | node label content =>
      cases hroot
      rfl
  have hmem := Node.ancestors_subset h hother
  rw [hself] at hmem
  rcases List.mem_append.1 hmem with hmem | hmem
  · rw [List.mem_singleton.1 hmem]
    exact root.self_mem_preorder
  · exact hmem

/-- No two nodes of a tree have one place. -/
theorem nodup_places (tree : Tree) : (tree.nodes.map Node.place).Nodup := by
  cases tree with
  | token kind text => exact List.nodup_nil
  | node label content => exact Node.nodup_places _

theorem eq_of_place (h : node ∈ tree.nodes) (hother : other ∈ tree.nodes)
    (hplace : node.place = other.place) : node = other :=
  List.inj_on_of_nodup_map tree.nodup_places h hother hplace

end Tree

end LuaTypes
