import LuaTypes.Proofs.Inference.Enclosure

/-!
# Closed codebases

In a codebase whose trees are of known kinds, and whose answers stay within its files, every rule
succeeds in reading its expression and asks only for expressions of the codebase. If the trees are
made by constructors, keys tell the expressions apart, too.

* `Codebase.HasNode`, `Codebase.HasExpr`: the nodes and expressions of a codebase;
* `Codebase.Legible`, `Codebase.Closed`: what is assumed of the trees and answers of a codebase;
* `Inquiry.Within`: an inquiry reads without failure and asks only for some expressions;
* `Codebase.Legible.typeOf`: the rules are such inquiries;
* `Codebase.Closed.eq_of_key`: keys tell the expressions of a closed codebase apart.
-/

namespace LuaTypes

namespace Codebase

/-- The nodes of a codebase. -/
def HasNode (codebase : Codebase) (node : Filed Node) : Prop :=
  ∃ tree, codebase.files[node.file]? = some tree ∧ node.value ∈ tree.nodes

/-- The expressions of a codebase. -/
def HasExpr (codebase : Codebase) (e : Filed Expr) : Prop :=
  codebase.HasNode (e.replace e.value.node)

/-- What a name refers to lies in the codebase, or is a known type with a property. -/
def HasBinding (codebase : Codebase) (Known : Ty → Prop) : Binding → Prop
  | .initializer e => codebase.HasExpr e
  | .function body => codebase.HasNode body
  | .annotated ty => Known ty

/-- A codebase of trees of known kinds whose answers stay within its files. -/
structure Legible (codebase : Codebase) : Prop where
  known : ∀ tree ∈ codebase.files, tree.isKnown = true
  moduleFile : ∀ path origin, Gives (codebase.moduleFile path origin) fun _ => True
  bindingOf : ∀ {name}, codebase.HasNode name →
    Gives (codebase.bindingOf name) (Every (codebase.HasBinding fun _ => True))
  calledBody : ∀ {call}, codebase.HasNode call →
    Gives (codebase.calledBody call) (Every codebase.HasNode)
  declaredType : ∀ {body}, codebase.HasNode body → Gives (codebase.declaredType body) fun _ => True

/-- A codebase of trees made by constructors whose answers stay within its files. -/
structure Closed (codebase : Codebase) : Prop where
  made : ∀ tree ∈ codebase.files, Made tree
  moduleFile : ∀ path origin, Gives (codebase.moduleFile path origin) fun _ => True
  bindingOf : ∀ {name}, codebase.HasNode name →
    Gives (codebase.bindingOf name) (Every (codebase.HasBinding fun _ => True))
  calledBody : ∀ {call}, codebase.HasNode call →
    Gives (codebase.calledBody call) (Every codebase.HasNode)
  declaredType : ∀ {body}, codebase.HasNode body → Gives (codebase.declaredType body) fun _ => True

/-- The types that a codebase knows beforehand are proper. -/
structure Proper (codebase : Codebase) : Prop where
  bindingOf : ∀ {name}, codebase.HasNode name →
    Gives (codebase.bindingOf name) (Every (codebase.HasBinding (·.isProper = true)))
  declaredType : ∀ {body}, codebase.HasNode body →
    Gives (codebase.declaredType body) (Every (·.isProper = true))

variable {codebase : Codebase}

/-- The nodes of a file are closed under what reading looks at. -/
theorem enclosed_hasNode {fails : Prop}
    (h : fails ∨ ∀ tree ∈ codebase.files, tree.isKnown = true) (file : FileNumber) :
    Enclosed fails fun node => codebase.HasNode ⟨file, node⟩ where
  known := fun ⟨_, htree, hnode⟩ => h.imp_right fun hknown =>
    Tree.exists_kind (hknown _ (List.mem_of_getElem? htree)) hnode
  below := fun ⟨tree, htree, hnode⟩ hother => ⟨tree, htree, Tree.preorder_mem_nodes hnode hother⟩
  above := fun ⟨tree, htree, hnode⟩ hother => ⟨tree, htree, Tree.ancestors_mem_nodes hnode hother⟩

theorem hasNode_root {file : FileNumber} {root : Node} (h : codebase.root? file = some root) :
    codebase.HasNode ⟨file, root⟩ := by
  obtain ⟨tree, htree, hroot⟩ := Option.bind_eq_some_iff.1 h
  exact ⟨tree, htree, Tree.root_mem_nodes hroot⟩

/-- What a name refers to lies in the codebase if it is one of its nodes. -/
theorem liesIn_hasNode {Known : Ty → Prop} {binding : Binding} :
    binding.LiesIn codebase.HasNode Known ↔ codebase.HasBinding Known binding := by
  cases binding <;> rfl

theorem Legible.enclosed (h : codebase.Legible) (file : FileNumber) :
    Enclosed False fun node => codebase.HasNode ⟨file, node⟩ :=
  enclosed_hasNode (.inr h.known) file

/-- Requests do not leave a legible codebase, and meet no foreign kind. -/
theorem Legible.enclosure_of (h : codebase.Legible) {Known : Ty → Prop} (hstable : Ty.Stable Known)
    (hbinding : ∀ {name}, codebase.HasNode name →
      Gives (codebase.bindingOf name) (Every (codebase.HasBinding Known)))
    (hdeclared : ∀ {body}, codebase.HasNode body →
      Gives (codebase.declaredType body) (Every Known)) (reach : Reach) :
    Enclosure False codebase reach codebase.HasNode Known where
  stable := hstable
  nodes := h.enclosed
  root _ _ _ hroot := hasNode_root hroot
  moduleFile path origin := (h.moduleFile path origin).reads
  bindingOf hname := (hbinding hname).reads.mono fun _ hfound binding hmem =>
    liesIn_hasNode.2 (hfound binding hmem)
  calledBody hcall := (h.calledBody hcall).reads
  declaredType hbody := (hdeclared hbody).reads

theorem Legible.enclosure (h : codebase.Legible) (reach : Reach) :
    Enclosure False codebase reach codebase.HasNode fun _ => True := by
  refine h.enclosure_of Ty.stable_true h.bindingOf (fun hbody => ?_) reach
  obtain ⟨found, hfound, -⟩ := h.declaredType hbody
  exact ⟨found, hfound, fun _ _ => trivial⟩

namespace Closed

theorem legible (h : codebase.Closed) : codebase.Legible where
  known := fun tree htree => (h.made tree htree).isKnown
  moduleFile := h.moduleFile
  bindingOf := h.bindingOf
  calledBody := h.calledBody
  declaredType := h.declaredType

theorem enclosed (h : codebase.Closed) (file : FileNumber) :
    Enclosed False fun node => codebase.HasNode ⟨file, node⟩ :=
  h.legible.enclosed file

/-- Where the types known beforehand are proper, all are. -/
theorem enclosure (h : codebase.Closed) (hproper : codebase.Proper) (reach : Reach) :
    Enclosure False codebase reach codebase.HasNode (·.isProper = true) :=
  h.legible.enclosure_of Ty.stable_isProper hproper.bindingOf hproper.declaredType reach

/-- Keys tell the expressions of a codebase apart. -/
theorem eq_of_key (h : codebase.Closed) {a b : Filed Expr} (ha : codebase.HasExpr a)
    (hb : codebase.HasExpr b) (hkey : Expr.key a = Expr.key b) : a = b := by
  obtain ⟨file, a⟩ := a
  obtain ⟨file', b⟩ := b
  simp only [Expr.key, Key.mk.injEq] at hkey
  obtain ⟨rfl, -, hstart, hwidth⟩ := hkey
  obtain ⟨tree, htree, hnode⟩ := ha
  obtain ⟨tree', htree', hnode'⟩ := hb
  cases htree.symm.trans htree'
  have hspan : a.node.span = b.node.span := Prod.ext hstart hwidth
  have hone : a = b := (h.made tree (List.mem_of_getElem? htree)).eq_of_span hnode hnode' hspan
  rw [hone]

end Closed

end Codebase

/-! ### Inquiries that stay within a codebase -/

/-- An inquiry meets no foreign kind and asks only for some expressions, whatever the answers. -/
inductive Inquiry.Within {α : Type} (P : Filed Expr → Prop) : Inquiry α → Prop
  | done (value : α) : Within P (.done value)
  | ask {e : Filed Expr} {next : Ty → Inquiry α} (he : P e) (hnext : ∀ ty, Within P (next ty)) :
    Within P (.ask e next)

theorem Inquiry.Within.typeOf {P : Filed Expr → Prop} {e : Filed Expr} (he : P e) :
    (Inquiry.typeOf e).Within P :=
  .ask he .done

/-- Where failing is not allowed, no foreign kind is met. -/
theorem Inquiry.Keeps.within {α : Type} {P : Filed Expr → Prop} {Out : α → Prop}
    {inquiry : Inquiry α} (h : inquiry.Keeps False P (fun _ => True) Out) : inquiry.Within P := by
  induction h with
  | done _ => exact .done _
  | fail h foreign => exact h.elim
  | ask he _ ih => exact .ask he fun ty => ih ty trivial

namespace Codebase.Legible

variable {codebase : Codebase} {node : Filed Node}

theorem typeOfUnary (h : codebase.Legible) (hnode : codebase.HasNode node) :
    (typeOfUnary node).Within codebase.HasExpr :=
  ((h.enclosure .full).typeOfUnary hnode).within

theorem typeOfBinary (h : codebase.Legible) (hnode : codebase.HasNode node) :
    (typeOfBinary node).Within codebase.HasExpr :=
  ((h.enclosure .full).typeOfBinary hnode).within

theorem typeOfCall (h : codebase.Legible) (reach : Reach) (hnode : codebase.HasNode node) :
    (typeOfCall codebase reach node).Within codebase.HasExpr :=
  ((h.enclosure reach).typeOfCall hnode).within

theorem typeOfBody (h : codebase.Legible) (hnode : codebase.HasNode node) :
    (typeOfBody codebase node).Within codebase.HasExpr :=
  ((h.enclosure .full).typeOfBody hnode).within

theorem typeOfReturns (h : codebase.Legible) (hnode : codebase.HasNode node) :
    (typeOfReturns node).Within codebase.HasExpr :=
  ((h.enclosure .full).typeOfReturns hnode).within

theorem typeOfExport (h : codebase.Legible) (file : FileNumber) :
    (typeOfExport codebase file).Within codebase.HasExpr :=
  ((h.enclosure .full).typeOfExport fun _ => hasNode_root).within

/-- Every rule reads its expression without failure and asks only for expressions of the
codebase. -/
theorem typeOf (h : codebase.Legible) (reach : Reach) {e : Filed Expr} (he : codebase.HasExpr e) :
    (typeOf codebase reach e).Within codebase.HasExpr :=
  ((h.enclosure reach).typeOf he).within

end Codebase.Legible

theorem Codebase.Closed.typeOf {codebase : Codebase} (h : codebase.Closed) (reach : Reach)
    {e : Filed Expr} (he : codebase.HasExpr e) :
    (typeOf codebase reach e).Within codebase.HasExpr :=
  h.legible.typeOf reach he

end LuaTypes
