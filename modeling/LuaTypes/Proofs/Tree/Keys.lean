import LuaTypes.Inference.Trail
import LuaTypes.Proofs.Tree.Reading

/-!
# Keys of expressions

Trail and memo know an expression by its key: its file, its kind, its first byte and its length.
The first byte counts what precedes the expression in the text of its tree, and the length is that
of its own text. In a tree made by constructors no two expressions share a key, even where names
and literals are spelled by nothing at all.

* `Tree.exists_text_of_mem_nodes`: where the text of a node stands in the text of its tree;
* `Tree.exprs`, `Tree.exists_exprs`: the expressions of a tree of known kinds;
* `Made.nodup_keys`: keys tell the expressions of a tree apart.
-/

namespace LuaTypes

namespace Node

mutual

theorem exists_text_of_mem_preorderAt {above : List Site} {start index : Nat} {node : Node} :
    ∀ tree : Tree, node ∈ preorderAt above start index tree →
      ∃ before after, tree.text = before ++ node.text ++ after ∧
        node.start = start + before.utf8ByteSize
  | .token .., h => by cases h
  | .node label content, h => by
    rcases List.mem_cons.1 h with rfl | h
    · exact ⟨"", "", by simp [Tree.text, Node.text], rfl⟩
    · exact exists_text_of_mem_preorderFrom content h

theorem exists_text_of_mem_preorderFrom {above : List Site} {start index : Nat} {node : Node} :
    ∀ trees : List Tree, node ∈ preorderFrom above start index trees →
      ∃ before after, Tree.textAll trees = before ++ node.text ++ after ∧
        node.start = start + before.utf8ByteSize
  | [], h => by cases h
  | tree :: rest, h => by
    rcases List.mem_append.1 h with h | h
    · obtain ⟨before, after, htext, hstart⟩ := exists_text_of_mem_preorderAt tree h
      refine ⟨before, after ++ Tree.textAll rest, ?_, hstart⟩
      rw [Tree.textAll, htext, String.append_assoc]
    · obtain ⟨before, after, htext, hstart⟩ := exists_text_of_mem_preorderFrom rest h
      refine ⟨tree.text ++ before, after, ?_, ?_⟩
      · simp only [Tree.textAll, htext, String.append_assoc]
      · rw [hstart, String.utf8ByteSize_append, Tree.utf8ByteSize_text, Nat.add_assoc]

end

end Node

namespace Tree

variable {tree : Tree}

/-- A node begins after the bytes of all that precedes its text in the text of the tree. -/
theorem exists_text_of_mem_nodes {node : Node} (h : node ∈ tree.nodes) :
    ∃ before after, tree.text = before ++ node.text ++ after ∧
      node.start = before.utf8ByteSize := by
  rw [nodes_eq] at h
  simpa using Node.exists_text_of_mem_preorderAt tree h

/-- The expressions of a tree, in the order of its nodes. -/
def exprs (tree : Tree) : Reading (List Expr) := hits Node.expr? tree.nodes

theorem exists_hits_expr? {nodes : List Node}
    (h : ∀ node ∈ nodes, ∃ kind, node.label = .known kind) :
    ∃ exprs, hits Node.expr? nodes = .ok exprs ∧
      exprs.map Expr.node = nodes.filter Node.isExpr := by
  induction nodes with
  | nil => exact ⟨[], rfl, rfl⟩
  | cons node rest ih =>
    obtain ⟨exprs, hexprs, hnodes⟩ := ih fun other hother => h other (List.mem_cons_of_mem _ hother)
    obtain ⟨kind, hkind⟩ := h node List.mem_cons_self
    cases hform : kind.form? with
    | none =>
      have hisExpr : node.isExpr = false := by simp [Node.isExpr, hkind, Label.isExpr, hform]
      refine ⟨exprs, ?_, ?_⟩
      · rw [hits, Node.expr?_of_form_none hkind hform]
        exact hexprs
      · rw [List.filter_cons_of_neg (by simp [hisExpr]), hnodes]
    | some form =>
      have hlabel : node.label = .known form.kind := by
        rw [hkind, Kind.form?_eq_some_iff.1 hform]
      have hisExpr : node.isExpr = true := by simp [Node.isExpr, hkind, Label.isExpr, hform]
      refine ⟨⟨form, node, hlabel⟩ :: exprs, ?_, ?_⟩
      · rw [hits, Node.expr?_of_label hlabel, hexprs]
        rfl
      · rw [List.filter_cons_of_pos hisExpr, List.map_cons, hnodes]

/-- A tree of known kinds gives up its expressions, each node of one of the nine forms once. -/
theorem exists_exprs (h : tree.isKnown = true) :
    ∃ exprs, tree.exprs = .ok exprs ∧ exprs.map Expr.node = tree.nodes.filter Node.isExpr :=
  exists_hits_expr? fun _ hnode => exists_kind h hnode

theorem mem_exprs_iff {nodes : List Node} {exprs : List Expr}
    (h : exprs.map Expr.node = nodes.filter Node.isExpr) (e : Expr) :
    e ∈ exprs ↔ e.node ∈ nodes := by
  have hnode : e.node ∈ exprs.map Expr.node ↔ e.node ∈ nodes := by
    rw [h, List.mem_filter, and_iff_left e.isExpr_node]
  rw [← hnode, List.mem_map]
  constructor
  · exact fun he => ⟨e, he, rfl⟩
  · rintro ⟨other, hother, heq⟩
    rwa [← Expr.ext_node heq]

/-- A key holds the span of its expression, so that keys differ where spans do. -/
theorem nodup_keys_of_nodup_spans (file : FileNumber) {exprs : List Expr}
    (h : ((exprs.map Expr.node).map Node.span).Nodup) :
    (exprs.map fun e => Expr.key ⟨file, e⟩).Nodup := by
  refine List.Nodup.of_map (fun key => (key.start, key.width)) ?_
  rw [List.map_map] at h ⊢
  exact h

end Tree

/-- In a tree made by constructors each expression has a key of its own. The key says where the text
of the expression stands in the text of the tree. -/
theorem Made.nodup_keys {tree : Tree} (h : Made tree) (file : FileNumber) :
    ∃ exprs, tree.exprs = .ok exprs ∧ (∀ e : Expr, e ∈ exprs ↔ e.node ∈ tree.nodes) ∧
      (exprs.map fun e => Expr.key ⟨file, e⟩).Nodup ∧
      (∀ a ∈ exprs, ∀ b ∈ exprs, Expr.key ⟨file, a⟩ = Expr.key ⟨file, b⟩ → a = b) ∧
      ∀ e ∈ exprs, ∃ before after, tree.text = before ++ e.text ++ after ∧
        Expr.key ⟨file, e⟩ =
          ⟨file, e.form.kind, before.utf8ByteSize, e.text.utf8ByteSize⟩ := by
  obtain ⟨exprs, hexprs, hnodes⟩ := Tree.exists_exprs h.isKnown
  have hmem := Tree.mem_exprs_iff hnodes
  have hnodup : (exprs.map fun e => Expr.key ⟨file, e⟩).Nodup := by
    apply Tree.nodup_keys_of_nodup_spans
    rw [hnodes]
    exact Tree.nodup_spans h.isSpread
  refine ⟨exprs, hexprs, hmem, hnodup, ?_, ?_⟩
  · intro a ha b hb
    exact List.inj_on_of_nodup_map hnodup ha hb
  · intro e he
    obtain ⟨before, after, htext, hstart⟩ := Tree.exists_text_of_mem_nodes ((hmem e).1 he)
    refine ⟨before, after, htext, ?_⟩
    rw [Expr.key, hstart, Expr.text, Node.utf8ByteSize_text]

/-- Two names that are spelled by nothing, side by side in a table, have keys of their own. -/
theorem Made.nodup_keys_blank_names :
    ∃ exprs, (Build.table [Build.name "", Build.name ""]).exprs = .ok exprs ∧
      exprs.length = 3 ∧ (exprs.map fun e => Expr.key ⟨0, e⟩).Nodup := by
  have hmade : Made (Build.table [Build.name "", Build.name ""]) :=
    .table (List.forall_mem_cons.2 ⟨.name "", List.forall_mem_singleton.2 (.name "")⟩)
  obtain ⟨exprs, hexprs, -, hnodup, -⟩ := hmade.nodup_keys 0
  refine ⟨exprs, hexprs, ?_, hnodup⟩
  have hlength : (Build.table [Build.name "", Build.name ""]).exprs.map List.length = .ok 3 := rfl
  rw [hexprs] at hlength
  exact Except.ok.inj hlength

end LuaTypes
