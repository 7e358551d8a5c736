import LuaTypes.Proofs.Tree.Made
import LuaTypes.Tree.Statement

/-!
# The returns of a function body

Which returns belong to a function body can be seen from below: the nearest body above the return
is this one. It can be seen from above as well: a walk down from the body that goes into no other
body meets the return. Both find the same returns in the same order, so no return is lost or
counted twice, however functions are written inside one another.

* `Node.nearestBody?` looks up, `Node.walk` and `Body.walk` look down;
* `Node.nearestBody?_of_mem`: the nearest body of what lies below a node;
* `Node.filter_below_eq_walk`: both views agree, by induction on the nodes;
* `Body.returns_partition`: what a body's returns are, and that each return has one body.
-/

namespace LuaTypes

namespace Node

/-! ### Looking up -/

/-- Whether a node is a function body. -/
def isBody (node : Node) : Bool := node.label = .known .funcBody

/-- Whether a node is a return. -/
def isReturn (node : Node) : Bool := node.label = .known .returnStmt

theorem not_isBody_of_isReturn {node : Node} (h : node.isReturn = true) : node.isBody = false := by
  simp_all [isBody, isReturn]

/-- The nearest function body at or above a node. -/
def nearestBody? (node : Node) : Option Node := node.ancestors.find? isBody

theorem nearestBody?_of_mem_children {node child : Node} (h : child ∈ node.children) :
    child.nearestBody? = if child.isBody then some child else node.nearestBody? := by
  rw [nearestBody?, ancestors_of_mem_children h, List.find?_cons]
  cases child.isBody <;> rfl

theorem nearestBody?_of_isBody {node : Node} (h : node.isBody = true) :
    node.nearestBody? = some node := by
  rw [nearestBody?, ancestors, List.find?_cons, h]

theorem isBody_of_nearestBody? {node body : Node} (h : node.nearestBody? = some body) :
    body.isBody = true :=
  List.find?_some h

/-- The nearest body of what lies below a node lies below the node too, or it is the nearest body
of the node. -/
theorem nearestBody?_of_mem {node other : Node} (h : other ∈ node.preorder) :
    (∃ body ∈ node.below, other.nearestBody? = some body ∧ other ∈ body.preorder) ∨
      other.nearestBody? = node.nearestBody? := by
  induction node using Node.induction with
  | step node ih =>
    rcases mem_preorder_iff.1 h with rfl | ⟨child, hchild, hother⟩
    · exact Or.inr rfl
    rcases ih child hchild hother with ⟨body, hbody, hnearest, hbelow⟩ | hnearest
    · have hbody := below_subset_preorder child hbody
      exact Or.inl ⟨body, mem_below_iff.2 ⟨child, hchild, hbody⟩, hnearest, hbelow⟩
    · rw [nearestBody?_of_mem_children hchild] at hnearest
      split at hnearest
      · have hself := mem_below_iff.2 ⟨child, hchild, child.self_mem_preorder⟩
        exact Or.inl ⟨child, hself, hnearest, hother⟩
      · exact Or.inr hnearest

/-- What lies below a function body has its nearest body there. -/
theorem exists_nearestBody? {body other : Node} (hbody : body.isBody = true)
    (h : other ∈ body.preorder) :
    ∃ nearest ∈ body.preorder, other.nearestBody? = some nearest ∧ other ∈ nearest.preorder := by
  rcases nearestBody?_of_mem h with ⟨nearest, hnearest, hfound, hother⟩ | hsame
  · exact ⟨nearest, below_subset_preorder body hnearest, hfound, hother⟩
  · rw [nearestBody?_of_isBody hbody] at hsame
    exact ⟨body, body.self_mem_preorder, hsame, h⟩

/-- Whether a node is a return whose nearest body is this one. -/
def belongsTo (body node : Node) : Bool :=
  node.isReturn && (node.nearestBody?.map place = some body.place)

/-! ### Looking down -/

mutual

/-- The returns that a walk down a tree meets when it goes into no function body. -/
def walkAt (above : List Site) (start index : Nat) : Tree → List Node
  | .token .. => []
  | .node label content =>
    if label = .known .funcBody then []
    else if label = .known .returnStmt then
      ⟨⟨label, content, start, index⟩, above⟩ ::
        walkFrom (⟨label, content, start, index⟩ :: above) start 0 content
    else walkFrom (⟨label, content, start, index⟩ :: above) start 0 content

/-- The returns that a walk meets among trees that stand side by side. -/
def walkFrom (above : List Site) (start index : Nat) : List Tree → List Node
  | [] => []
  | tree :: rest =>
    walkAt above start index tree ++ walkFrom above (start + tree.width) (index + 1) rest

end

/-- The returns that a walk meets strictly below a node. -/
def walkBelow (node : Node) : List Node :=
  walkFrom (node.toSite :: node.above) node.start 0 node.content

/-- The returns that a walk meets from a node on. -/
def walk (node : Node) : List Node :=
  if node.isBody then []
  else if node.isReturn then node :: node.walkBelow
  else node.walkBelow

theorem walkAt_node (above : List Site) (start index : Nat) (label : Label) (content : List Tree) :
    walkAt above start index (.node label content) =
      walk ⟨⟨label, content, start, index⟩, above⟩ := by
  simp [walkAt, walk, isBody, isReturn, walkBelow]

theorem walkFrom_eq (above : List Site) (start index : Nat) (trees : List Tree) :
    walkFrom above start index trees = (siblings above start index trees).flatMap walk := by
  induction trees generalizing start index with
  | nil => rfl
  | cons tree rest ih =>
    cases tree with
    | token kind text => simp [walkFrom, walkAt, siblings, Tree.width, ih]
    | node label content => simp [walkFrom, walkAt_node, siblings, Tree.width, ih]

theorem walkBelow_eq (node : Node) : node.walkBelow = node.children.flatMap walk := by
  rw [walkBelow, walkFrom_eq, children]

/-! ### Both views agree -/

variable {node body : Node}

/-- Nothing in a function body belongs to a body that is not in there. -/
theorem belongsTo_of_mem_isBody {inner other : Node} (hinner : inner.isBody = true)
    (hother : other ∈ inner.preorder) (hlt : body.place.length < inner.place.length) :
    belongsTo body other = false := by
  obtain ⟨nearest, hnearest, hfound, -⟩ := exists_nearestBody? hinner hother
  have hle := (place_suffix_of_mem hnearest).length_le
  simp only [belongsTo, hfound, Option.map_some, Option.some.injEq, Bool.and_eq_false_imp,
    decide_eq_false_iff_not]
  intro _ hplace
  rw [hplace] at hle
  omega

/-- Below a node whose nearest body is this one, what belongs to the body is what a walk meets. The
induction is on the node: at a child that is a body both views find nothing, and any other child has
the nearest body of the node. -/
theorem filter_below_eq_walk (h : node.nearestBody? = some body) :
    node.below.filter (belongsTo body) = node.walkBelow := by
  induction node using Node.induction with
  | step node ih =>
    have hplace : body.place <:+ node.place :=
      place_suffix_of_mem_ancestors (List.mem_of_find?_eq_some h)
    rw [below_eq, walkBelow_eq, List.filter_flatMap]
    refine List.flatMap_congr fun child hchild => ?_
    have hnearest := nearestBody?_of_mem_children hchild
    rw [walk]
    by_cases hbody : child.isBody = true
    · rw [if_pos hbody, List.filter_eq_nil_iff]
      intro other hother
      have hlt : body.place.length < child.place.length := by
        have hle := hplace.length_le
        rw [place_of_mem_children hchild, List.length_cons]
        omega
      simp [belongsTo_of_mem_isBody hbody hother hlt]
    · rw [if_neg hbody, h] at hnearest
      rw [if_neg hbody, preorder, List.filter_cons, ih child hchild hnearest]
      simp [belongsTo, hnearest]

end Node

namespace Body

open Node

variable {tree : Tree} {body ret : Node}

/-- The returns below a body that a walk meets when it goes into no other body. -/
def walk (body : Node) : List Node := body.walkBelow

/-! ### Reading the returns -/

theorem ofKind?_of_known {node : Node} (kind : Kind) (h : ∃ k, node.label = .known k) :
    node.ofKind? kind = .ok (if node.label = .known kind then some node else none) := by
  obtain ⟨k, hk⟩ := h
  simp [Node.ofKind?, Node.kind, hk, Except.map]

theorem owner_of_known {node : Node} (h : ∀ a ∈ node.ancestors, ∃ k, a.label = .known k) :
    owner node = .ok node.nearestBody? := by
  rw [owner, firstHit_ok fun a ha => ofKind?_of_known .funcBody (h a ha), nearestBody?,
    List.find?_eq_findSome?_guard]
  congr 2
  funext a
  simp [Option.guard, isBody]

theorem ownReturn?_of_known {node : Node} (h : ∀ a ∈ node.ancestors, ∃ k, a.label = .known k) :
    ownReturn? body node = .ok (if belongsTo body node then some node else none) := by
  rw [ownReturn?, ofKind?_of_known .returnStmt (h node List.mem_cons_self)]
  by_cases hret : node.label = .known .returnStmt
  · rw [if_pos hret]
    show (owner node >>= fun found =>
      .ok (if found.map place = some body.place then some node else none)) = _
    rw [owner_of_known h]
    simp [belongsTo, isReturn, hret, bind, Except.bind]
  · rw [if_neg hret, belongsTo, isReturn, decide_eq_false hret]
    rfl

theorem returns_of_known (hknown : tree.isKnown = true) (hbody : body ∈ tree.nodes) :
    returns body = .ok (body.preorder.filter (belongsTo body)) := by
  have hlook : ∀ node ∈ body.preorder,
      ownReturn? body node = .ok (if belongsTo body node then some node else none) := by
    intro node hnode
    refine ownReturn?_of_known fun a ha => Tree.exists_kind hknown ?_
    exact Tree.ancestors_mem_nodes (Tree.preorder_mem_nodes hbody hnode) ha
  rw [returns, hits_ok hlook, ← List.filterMap_eq_filter]
  congr 2

/-- Within one tree a return belongs to a body if that is its nearest body. -/
theorem belongsTo_iff (hbody : body ∈ tree.nodes) (hret : ret ∈ tree.nodes) :
    belongsTo body ret = true ↔ ret.isReturn = true ∧ ret.nearestBody? = some body := by
  rw [belongsTo, Bool.and_eq_true, decide_eq_true_iff]
  refine and_congr_right fun _ => ⟨fun h => ?_, fun h => by rw [h]; rfl⟩
  obtain ⟨nearest, hfound, hplace⟩ := Option.map_eq_some_iff.1 h
  have hmem : nearest ∈ tree.nodes :=
    Tree.ancestors_mem_nodes hret (List.mem_of_find?_eq_some hfound)
  rw [hfound, Tree.eq_of_place hmem hbody hplace]

/-- The returns of a body are those below it that lie below no other body in there. -/
theorem mem_returns_iff (hbody : body ∈ tree.nodes) (hkind : body.isBody = true) :
    ret ∈ body.preorder.filter (belongsTo body) ↔ ret ∈ body.below ∧ ret.isReturn = true ∧
      ∀ other ∈ body.below, other.isBody = true → ret ∉ other.below := by
  rw [List.mem_filter]
  constructor
  · rintro ⟨hmem, hbelongs⟩
    obtain ⟨hret, hnearest⟩ :=
      (belongsTo_iff hbody (Tree.preorder_mem_nodes hbody hmem)).1 hbelongs
    refine ⟨?_, hret, ?_⟩
    · rcases List.mem_cons.1 hmem with rfl | hmem
      · rw [not_isBody_of_isReturn hret] at hkind
        cases hkind
      · exact hmem
    · intro other hother hotherKind hbelow
      have hlt := place_length_lt_of_mem_below hother
      rw [belongsTo_of_mem_isBody hotherKind (below_subset_preorder other hbelow) hlt] at hbelongs
      cases hbelongs
  · rintro ⟨hbelow, hret, hnone⟩
    have hmem := below_subset_preorder body hbelow
    refine ⟨hmem, (belongsTo_iff hbody (Tree.preorder_mem_nodes hbody hmem)).2 ⟨hret, ?_⟩⟩
    rcases nearestBody?_of_mem hmem with ⟨nearest, hnearest, hfound, hother⟩ | hsame
    · have hnearestKind := isBody_of_nearestBody? hfound
      rcases List.mem_cons.1 hother with rfl | hother
      · rw [not_isBody_of_isReturn hret] at hnearestKind
        cases hnearestKind
      · exact (hnone nearest hnearest hnearestKind hother).elim
    · rw [hsame, nearestBody?_of_isBody hkind]

theorem filter_preorder_eq_walk (hkind : body.isBody = true) :
    body.preorder.filter (belongsTo body) = walk body := by
  have hself : belongsTo body body = false := by
    have hret : body.isReturn = false := by simp_all [isBody, isReturn]
    rw [belongsTo, hret, Bool.false_and]
  rw [preorder, List.filter_cons, hself]
  exact filter_below_eq_walk (nearestBody?_of_isBody hkind)

/-- In a tree of known kinds the returns of a function body are read without failure. They are what
a walk down from the body meets when it goes into no other body: a part of the nodes below it in
their order, none of them twice, namely the returns with no other body in between. Every return
that lies below a body is one of the returns of just one body. -/
theorem returns_partition (hknown : tree.isKnown = true) :
    (∀ body ∈ tree.nodes, body.label = .known .funcBody →
      ∃ rets, returns body = .ok rets ∧ rets = walk body ∧ rets.Sublist body.below ∧
        (rets.map place).Nodup ∧
        ∀ ret, ret ∈ rets ↔ ret ∈ body.below ∧ ret.label = .known .returnStmt ∧
          ∀ other ∈ body.below, other.label = .known .funcBody → ret ∉ other.below) ∧
    ∀ ret ∈ tree.nodes, ret.label = .known .returnStmt →
      (∃ body ∈ tree.nodes, body.label = .known .funcBody ∧ ret ∈ body.below) →
      ∃! body, body ∈ tree.nodes ∧ body.label = .known .funcBody ∧
        ∃ rets, returns body = .ok rets ∧ ret ∈ rets := by
  constructor
  · intro body hbody hkind
    have hkind : body.isBody = true := decide_eq_true hkind
    refine ⟨_, returns_of_known hknown hbody, filter_preorder_eq_walk hkind, ?_, ?_, ?_⟩
    · rw [filter_preorder_eq_walk hkind, walk,
        ← filter_below_eq_walk (nearestBody?_of_isBody hkind)]
      exact List.filter_sublist
    · exact body.nodup_places.sublist (List.filter_sublist.map place)
    · intro ret
      rw [mem_returns_iff hbody hkind]
      simp [isBody, isReturn]
  · rintro ret hret hkind ⟨outer, houter, houterKind, hbelow⟩
    have hkind : ret.isReturn = true := decide_eq_true hkind
    obtain ⟨nearest, hnearest, hfound, hmem⟩ :=
      exists_nearestBody? (decide_eq_true houterKind) (below_subset_preorder outer hbelow)
    have hnearest : nearest ∈ tree.nodes := Tree.preorder_mem_nodes houter hnearest
    refine ⟨nearest, ⟨hnearest, of_decide_eq_true (isBody_of_nearestBody? hfound), _,
      returns_of_known hknown hnearest, ?_⟩, ?_⟩
    · exact List.mem_filter.2 ⟨hmem, (belongsTo_iff hnearest hret).2 ⟨hkind, hfound⟩⟩
    · rintro body ⟨hbody, -, rets, hrets, hlisted⟩
      rw [returns_of_known hknown hbody] at hrets
      cases hrets
      obtain ⟨-, hbelongs⟩ := List.mem_filter.1 hlisted
      obtain ⟨-, hbodyFound⟩ := (belongsTo_iff hbody hret).1 hbelongs
      exact Option.some.inj (hbodyFound.symm.trans hfound)

/-- A closure that is returned by a closure: each of the two bodies has one return, and the return
that lies below both of them is one of the returns of just one. -/
theorem returns_partition_nested :
    let inner := Build.closure [] [Build.returnStmt [Build.number "1"]]
    let tree := Build.sourceFile [Build.returnStmt [Build.closure [] [Build.returnStmt [inner]]]]
    tree.isKnown = true ∧ (tree.nodes.filter isReturn).length = 3 ∧
      (tree.nodes.filter isBody).map (fun body => (walk body).length) = [1, 1] ∧
      (∀ body ∈ tree.nodes, body.label = .known .funcBody → returns body = .ok (walk body)) ∧
      ∃ outer ∈ tree.nodes, ∃ nested ∈ outer.below, ∃ ret ∈ nested.below,
        outer.isBody = true ∧ nested.isBody = true ∧ ret.isReturn = true ∧
          ∃! body, body ∈ tree.nodes ∧ body.label = .known .funcBody ∧
            ∃ rets, returns body = .ok rets ∧ ret ∈ rets := by
  intro inner tree
  have hknown : tree.isKnown = true := by decide
  obtain ⟨hreturns, hunique⟩ := returns_partition hknown
  refine ⟨hknown, by decide, by decide, ?_, ?_⟩
  · intro body hbody hkind
    obtain ⟨rets, hrets, rfl, -⟩ := hreturns body hbody hkind
    exact hrets
  · let outer := (tree.nodes.filter isBody).get ⟨0, by decide⟩
    let nested := (outer.below.filter isBody).get ⟨0, by decide⟩
    let ret := (nested.below.filter isReturn).get ⟨0, by decide⟩
    obtain ⟨houter, houterKind⟩ : outer ∈ tree.nodes ∧ outer.isBody = true :=
      List.mem_filter.1 (List.get_mem _ _)
    obtain ⟨hnested, hnestedKind⟩ : nested ∈ outer.below ∧ nested.isBody = true :=
      List.mem_filter.1 (List.get_mem _ _)
    obtain ⟨hret, hretKind⟩ : ret ∈ nested.below ∧ ret.isReturn = true :=
      List.mem_filter.1 (List.get_mem _ _)
    have hnestedNode : nested ∈ tree.nodes :=
      Tree.preorder_mem_nodes houter (below_subset_preorder outer hnested)
    have hretNode : ret ∈ tree.nodes :=
      Tree.preorder_mem_nodes hnestedNode (below_subset_preorder nested hret)
    refine ⟨outer, houter, nested, hnested, ret, hret, houterKind, hnestedKind, hretKind, ?_⟩
    exact hunique ret hretNode (of_decide_eq_true hretKind)
      ⟨nested, hnestedNode, of_decide_eq_true hnestedKind, hret⟩

end Body

end LuaTypes
