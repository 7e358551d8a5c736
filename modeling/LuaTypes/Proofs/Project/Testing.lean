import LuaTypes.Project.Links
import LuaTypes.Proofs.Project.Closed
import LuaTypes.Tree.Build

/-!
# Testing the expressions of a project

In a given project the expressions are finitely many, and what is said of each of them can be
computed. An expression is given by its number, and projects are put together from few parts.

* `Codebase.every`, `Codebase.testAt`: tests of all expressions, and of one with a number;
  `Codebase.test_of_every`, `Codebase.Legible.exists_of_testAt`;
* `Project.ofTree`, `Project.declaring`: projects of one file.
-/

namespace LuaTypes

namespace Codebase

variable (codebase : Codebase)

/-- Whether all expressions pass a test. -/
def every (test : Filed Expr → Bool) : Bool :=
  codebase.files.zipIdx.all fun (tree, file) => tree.nodes.all fun node =>
    match node.expr? with
    | .ok (some e) => test ⟨file, e⟩
    | _ => true

/-- Whether there is an expression with a number and it passes a test. -/
def testAt (part : Part) (test : Filed Expr → Bool) : Bool :=
  match codebase.expr? part with
  | .ok (some e) => test e
  | _ => false

variable {codebase} {test : Filed Expr → Bool}

theorem test_of_every (h : codebase.every test = true) {e : Filed Expr} (he : codebase.HasExpr e) :
    test e = true := by
  obtain ⟨tree, htree, hnode⟩ := he
  have hfile := List.all_eq_true.1 h (tree, e.file) (List.mk_mem_zipIdx_iff_getElem?.2 htree)
  have htest := List.all_eq_true.1 hfile _ hnode
  simpa [Node.expr?_of_label e.value.labelled] using htest

theorem Legible.hasExpr_of_expr? (hlegible : codebase.Legible) {part : Part} {e : Filed Expr}
    (h : codebase.expr? part = .ok (some e)) : codebase.HasExpr e := by
  have hread := hlegible.enclosed part.file
  have hnodes : ∀ node ∈ codebase.nodes part.file, codebase.HasNode ⟨part.file, node⟩ := by
    intro node hnode
    unfold nodes at hnode
    split at hnode
    · next root hroot => exact hread.below (hasNode_root hroot) hnode
    · cases hnode
  have hreads : Reads False (codebase.expr? part) (Every codebase.HasExpr) :=
    (Reads.hitAt part.number fun node hnode => hread.expr? (hnodes node hnode)).map
      fun found hfound e he => by
        obtain ⟨e', hfound', rfl⟩ := Option.map_eq_some_iff.1 he
        exact hfound e' hfound'
  exact hreads.ok _ h e rfl

/-- What passes a test under its number is an expression of the codebase. -/
theorem Legible.exists_of_testAt (hlegible : codebase.Legible) {part : Part}
    (h : codebase.testAt part test = true) :
    ∃ e, codebase.expr? part = .ok (some e) ∧ codebase.HasExpr e ∧ test e = true := by
  unfold testAt at h
  split at h
  · next e he => exact ⟨e, he, hlegible.hasExpr_of_expr? he, h⟩
  · cases h

theorem Closed.hasExpr_of_expr? (hclosed : codebase.Closed) {part : Part} {e : Filed Expr}
    (h : codebase.expr? part = .ok (some e)) : codebase.HasExpr e :=
  hclosed.legible.hasExpr_of_expr? h

theorem Closed.exists_of_testAt (hclosed : codebase.Closed) {part : Part}
    (h : codebase.testAt part test = true) :
    ∃ e, codebase.expr? part = .ok (some e) ∧ codebase.HasExpr e ∧ test e = true :=
  hclosed.legible.exists_of_testAt h

end Codebase

namespace Project

open Build

/-- A project of one file. -/
def ofTree (tree : Tree) : Project := (Project.empty .standard).withFile tree

theorem hasProperTypes_ofTree (tree : Tree) : (ofTree tree).HasProperTypes :=
  (hasProperTypes_empty _).withFile tree

/-- A project of one file that declares something and returns the value of an expression. -/
def declaring (stmt result : Tree) : Project := ofTree (sourceFile [stmt, returnStmt [result]])

theorem made_one {tree : Tree} (h : Made tree) : ∀ t ∈ [tree], Made t :=
  List.forall_mem_singleton.2 h

theorem made_declaring {stmt result : Tree} (hs : Made stmt) (hr : Made result) :
    ∀ tree ∈ (declaring stmt result).files, Made tree :=
  made_one (.sourceFile (List.forall_mem_cons.2 ⟨hs, made_one (.returnStmt (made_one hr))⟩))

/-- Either of two expressions. -/
def orElse (lhs rhs : Tree) : Tree := node .binaryExpr [lhs, blank, spelled .orKw, blank, rhs]

theorem made_orElse {lhs rhs : Tree} (hl : Made lhs) (hr : Made rhs) : Made (orElse lhs rhs) :=
  .binary hl hr (show binary lhs .orKw rhs = .ok (orElse lhs rhs) from rfl)

/-- A variable that begins with itself or a number in parentheses. -/
def selfOrNumber : Project :=
  declaring (localStmt ["x"] [orElse (name "x") (paren (number "1"))]) (name "x")

theorem made_selfOrNumber : ∀ tree ∈ selfOrNumber.files, Made tree :=
  made_declaring (.localStmt _ (made_one (made_orElse (.name _) (.paren (.number _))))) (.name _)

end Project

end LuaTypes
