import LuaTypes.Project.Basic
import LuaTypes.Proofs.Inference.Closed

/-!
# Look-ups in projects

A project looks names, calls and function bodies up in the file in which they are used. So whichever
files are taken together, requests that follow no modules do not leave them, and no request leaves
the nodes of all files. If the files are of known kinds, every look-up succeeds, and the codebase of
the project is legible; it is closed if its files are made by constructors.

* `Project.Whole`: nodes that hold every file of which they hold a node; one lemma for each look-up
  among such nodes;
* `Project.Whole.enclosure`: such nodes are not left;
  `Project.enclosure_file`, `Project.enclosure_hasNode`: those of one file and of all files;
* `Project.legible`, `Project.closed`, `Project.proper`: what files of known kinds give.
-/

namespace LuaTypes

namespace Project

/-- Nodes that are closed under reading and hold the nodes of every file of which they hold one. -/
structure Whole (fails : Prop) (project : Project) (S : Filed Node → Prop) : Prop where
  nodes : ∀ file, Enclosed fails fun node => S ⟨file, node⟩
  listed : ∀ {node : Filed Node} {tree : Tree}, S node → project.files[node.file]? = some tree →
    EveryIn (fun other => S ⟨node.file, other⟩) tree.nodes

variable {fails : Prop} {project : Project} {S : Filed Node → Prop} {Known : Ty → Prop}

section Lookup

variable {file : FileNumber} (hread : Enclosed fails fun node => S ⟨file, node⟩)
  (hnil : Known .nil)

/-- What is declared lies among the nodes, or is a known type with a property. -/
abbrev Declares (S : Filed Node → Prop) (Known : Ty → Prop) : Option Binding → Prop :=
  Every (Binding.LiesIn S Known)

include hread

theorem body_reads {node : Node} (hnode : S ⟨file, node⟩) :
    Reads fails node.body (Every fun body => S ⟨file, body⟩) :=
  hread.childOfKind hnode .funcBody

theorem declaredFunction_reads (name : String) {stmt : Node} (hstmt : S ⟨file, stmt⟩) :
    Reads fails (declaredFunction file name stmt) (Declares S Known) := by
  refine (hread.childOfKind hstmt .name).bind fun declared _ => ?_
  split
  · refine (body_reads hread hstmt).bind_option (.pure every_none) fun body hbody => ?_
    exact .pure (every_some hbody)
  · exact .pure every_none

theorem declaresFunction_reads (target : String) {node : Node} (hnode : S ⟨file, node⟩) :
    Reads fails (declaresFunction target node) (Every (Every fun body => S ⟨file, body⟩)) := by
  refine (hread.kind hnode).bind fun kind _ => ?_
  split
  · refine (hread.firstExpr hnode).bind fun e _ => ?_
    split
    · exact (body_reads hread hnode).bind fun body hbody => .pure (every_some hbody)
    · exact .pure every_none
  · refine (hread.childOfKind hnode .name).bind fun declared _ => ?_
    split
    · exact (body_reads hread hnode).bind fun body hbody => .pure (every_some hbody)
    · exact .pure every_none
  · exact .pure every_none

theorem bodyDeclaredAs_reads (target : String) {nodes : List Node}
    (hnodes : EveryIn (fun node => S ⟨file, node⟩) nodes) :
    Reads fails (bodyDeclaredAs nodes target) (Every fun body => S ⟨file, body⟩) :=
  (Reads.firstHit fun node hnode => declaresFunction_reads hread target (hnodes node hnode)).map
    fun _ hfound body hbody => hfound (some body) (Option.join_eq_some_iff.1 hbody) body rfl

theorem declaredPath_reads {body : Node} (hbody : S ⟨file, body⟩) :
    Reads fails (declaredPath body) fun _ => True := by
  unfold declaredPath
  split
  · exact .pure trivial
  · next owner howner =>
    have hnode := hread.parent hbody howner
    refine (hread.kind hnode).bind fun kind _ => ?_
    split
    · exact (hread.firstExpr hnode).bind fun _ _ => .pure trivial
    · exact (hread.childOfKind hnode .name).bind fun _ _ => .pure trivial
    · exact .pure trivial

include hnil

theorem declaredLocally_reads (name : String) {stmt : Node} (hstmt : S ⟨file, stmt⟩) :
    Reads fails (declaredLocally file name stmt) (Declares S Known) := by
  refine (hread.localNames hstmt).bind fun names _ => ?_
  split
  · exact .pure every_none
  · refine (hread.initializer hstmt _).bind_option (.pure (every_some hnil)) fun e he => ?_
    exact .pure (every_some he)

theorem declaredBy_reads (name : String) {stmt : Node} (hstmt : S ⟨file, stmt⟩) :
    Reads fails (declaredBy file name stmt) (Declares S Known) := by
  refine (hread.kind hstmt).bind fun kind _ => ?_
  split
  · exact declaredLocally_reads hread hnil name hstmt
  · exact declaredFunction_reads hread name hstmt
  · exact .pure every_none

theorem lastBinding_reads (name : String) (offset : Nat) {found : Option Binding}
    (hfound : Declares S Known found) {nodes : List Node}
    (hnodes : EveryIn (fun node => S ⟨file, node⟩) nodes) :
    Reads fails (lastBinding file name offset found nodes) (Declares S Known) := by
  induction nodes generalizing found with
  | nil => exact .pure hfound
  | cons node rest ih =>
    obtain ⟨hnode, hrest⟩ := List.forall_mem_cons.1 hnodes
    refine (hread.stmt? hnode).bind_option (ih hfound hrest) fun stmt hstmt => ?_
    dsimp only
    split
    · exact .pure hfound
    · refine (declaredBy_reads hread hnil name hstmt).bind fun declared hdeclared => ih ?_ hrest
      cases declared with
      | none => simpa using hfound
      | some binding => simpa using hdeclared

theorem enclosingBinding_reads (text : String) {name : Node} (hname : S ⟨file, name⟩) :
    Reads fails (enclosingBinding ⟨file, name⟩ text) (Declares S Known) :=
  Reads.firstHit fun _ hnode =>
    (hread.ofKind? (hread.above hname hnode) .block).bind_option (.pure every_none) fun _ hblock =>
      lastBinding_reads hread hnil text name.start every_none fun _ hchild =>
        hread.children hblock hchild

end Lookup

namespace Whole

/-- A function that is found by its name is one of the file in which it is looked for. -/
theorem functionIn_reads (h : Whole fails project S) {node : Filed Node} (hnode : S node)
    (target : String) : Reads fails (functionIn project.listings node.file target) (Every S) := by
  unfold functionIn
  split
  · exact .pure every_none
  · next nodes hnodes =>
    obtain ⟨tree, htree, rfl⟩ :
        ∃ tree, project.files[node.file]? = some tree ∧ tree.nodes = nodes := by
      simpa [listings] using hnodes
    have hbody := bodyDeclaredAs_reads (h.nodes node.file) target (h.listed hnode htree)
    exact hbody.bind_option (.pure every_none) fun body hbody => .pure (every_some hbody)

theorem bindingOf_reads (h : Whole fails project S) (hnil : Known .nil)
    (hglobals : ∀ name ty, project.globals.get? name = some ty → Known ty)
    {name : Filed Node} (hname : S name) :
    Reads fails (project.codebase.bindingOf name) (Declares S Known) := by
  show Reads fails (Project.bindingOf project.globals project.listings name) _
  unfold Project.bindingOf
  split
  · exact .pure every_none
  · next text _ =>
    refine (enclosingBinding_reads (h.nodes name.file) hnil text hname).bind_option ?_
      fun _ hbinding => .pure (every_some hbinding)
    dsimp only
    split
    · next ty hty => exact .pure (every_some (hglobals text ty hty))
    · refine (h.functionIn_reads hname text).bind_option (.pure every_none) fun body hbody => ?_
      exact .pure (every_some hbody)

theorem calledBody_reads (h : Whole fails project S) {call : Filed Node} (hcall : S call) :
    Reads fails (project.codebase.calledBody call) (Every S) :=
  ((h.nodes call.file).firstExpr hcall).bind_option (.pure every_none) fun callee _ =>
    h.functionIn_reads hcall callee.text

theorem declaredType_reads (h : Whole fails project S)
    (hdeclared : ∀ path ty, project.declaredTypes.get? path = some ty → Known ty)
    {body : Filed Node} (hbody : S body) :
    Reads fails (project.codebase.declaredType body) (Every Known) := by
  refine (declaredPath_reads (h.nodes body.file) hbody).bind fun path _ => ?_
  cases path with
  | none => exact .pure every_none
  | some path => exact .pure fun ty hty => hdeclared path ty hty

/-- Requests do not leave whole files, if they follow no modules or the files are all there are. -/
theorem enclosure (h : Whole fails project S) (hstable : Ty.Stable Known)
    (hglobals : ∀ name ty, project.globals.get? name = some ty → Known ty)
    (hdeclared : ∀ path ty, project.declaredTypes.get? path = some ty → Known ty) {reach : Reach}
    (hroot : reach = .full → ∀ file root, project.codebase.root? file = some root →
      S ⟨file, root⟩) : Codebase.Enclosure fails project.codebase reach S Known where
  stable := hstable
  nodes := h.nodes
  root := hroot
  moduleFile _ _ := .pure trivial
  bindingOf hname := h.bindingOf_reads hstable.nil hglobals hname
  calledBody hcall := h.calledBody_reads hcall
  declaredType hbody := h.declaredType_reads hdeclared hbody

end Whole

/-- All nodes of all trees, those of the project and others. -/
theorem whole_all (project : Project) : Whole True project fun _ => True :=
  ⟨fun _ => ⟨fun _ => .inl trivial, fun _ _ => trivial, fun _ _ => trivial⟩,
    fun _ _ _ _ => trivial⟩

theorem whole_file (project : Project) (file : FileNumber) :
    Whole True project fun node => node.file = file :=
  ⟨fun _ => ⟨fun _ => .inl trivial, fun hnode _ => hnode, fun hnode _ => hnode⟩,
    fun hnode _ _ _ => hnode⟩

theorem whole_hasNode (h : fails ∨ ∀ tree ∈ project.files, tree.isKnown = true) :
    Whole fails project project.codebase.HasNode :=
  ⟨Codebase.enclosed_hasNode h, fun _ htree _ hother => ⟨_, htree, hother⟩⟩

/-- Requests that follow no modules stay in their file. -/
theorem enclosure_file (project : Project) (file : FileNumber) :
    Codebase.Enclosure True project.codebase .ownFile (fun node => node.file = file)
      fun _ => True :=
  (project.whole_file file).enclosure Ty.stable_true (fun _ _ _ => trivial) (fun _ _ _ => trivial)
    nofun

/-- Requests stay in the project. -/
theorem enclosure_hasNode (h : fails ∨ ∀ tree ∈ project.files, tree.isKnown = true)
    (reach : Reach) :
    Codebase.Enclosure fails project.codebase reach project.codebase.HasNode fun _ => True :=
  (whole_hasNode h).enclosure Ty.stable_true (fun _ _ _ => trivial) (fun _ _ _ => trivial)
    fun _ _ _ => Codebase.hasNode_root

/-! ### Files of known kinds -/

/-- The codebase of a project whose files are of known kinds is legible. -/
theorem legible (h : ∀ tree ∈ project.files, tree.isKnown = true) : project.codebase.Legible := by
  have henclosure : Codebase.Enclosure False project.codebase .full project.codebase.HasNode
      fun _ => True := enclosure_hasNode (.inr h) .full
  refine ⟨h, fun path origin => (henclosure.moduleFile path origin).gives, fun hname => ?_,
    fun hcall => (henclosure.calledBody hcall).gives, fun hbody => ?_⟩
  · exact ((henclosure.bindingOf hname).mono fun _ hfound binding hmem =>
      Codebase.liesIn_hasNode.1 (hfound binding hmem)).gives
  · exact ((henclosure.declaredType hbody).mono fun _ _ => trivial).gives

/-- The codebase of a project whose files are made by constructors is closed. -/
theorem closed (h : ∀ tree ∈ project.files, Made tree) : project.codebase.Closed :=
  have hlegible := legible fun tree htree => (h tree htree).isKnown
  ⟨h, hlegible.moduleFile, hlegible.bindingOf, hlegible.calledBody, hlegible.declaredType⟩

/-- The types that are declared beforehand are proper, as is every type whose unions are made by
joining. -/
structure HasProperTypes (project : Project) : Prop where
  globals : ∀ name ty, project.globals.get? name = some ty → ty.isProper = true
  declaredTypes : ∀ path ty, project.declaredTypes.get? path = some ty → ty.isProper = true

theorem hasProperTypes_empty (conventions : Conventions) : (empty conventions).HasProperTypes :=
  ⟨nofun, nofun⟩

theorem HasProperTypes.withFile (h : project.HasProperTypes) (tree : Tree) :
    (project.withFile tree).HasProperTypes :=
  ⟨h.globals, h.declaredTypes⟩

theorem HasProperTypes.withGlobal (h : project.HasProperTypes) (name : String) {ty : Ty}
    (hty : ty.isProper = true) : (project.withGlobal name ty).HasProperTypes := by
  refine ⟨fun name' ty' hget => ?_, h.declaredTypes⟩
  simp only [Project.withGlobal, Dict.get?_insert] at hget
  split at hget
  · cases hget
    exact hty
  · exact h.globals name' ty' hget

theorem proper (h : ∀ tree ∈ project.files, Made tree) (htypes : project.HasProperTypes) :
    project.codebase.Proper := by
  have hwhole : Whole False project project.codebase.HasNode :=
    whole_hasNode (.inr fun tree htree => (h tree htree).isKnown)
  refine ⟨fun {name} hname => ?_, fun hbody =>
    (hwhole.declaredType_reads htypes.declaredTypes hbody).gives⟩
  have hbinding : Reads False (project.codebase.bindingOf name)
      (Declares project.codebase.HasNode (·.isProper = true)) :=
    hwhole.bindingOf_reads Ty.stable_isProper.nil htypes.globals hname
  exact (hbinding.mono fun _ hfound binding hmem =>
    Codebase.liesIn_hasNode.1 (hfound binding hmem)).gives

end Project

end LuaTypes
