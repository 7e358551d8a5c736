import LuaTypes.Proofs.Tree.Made
import LuaTypes.Tree.Statement

/-!
# Reading trees

The parts that reading hands out are nodes of the same tree: they lie below the node that is read,
or above it. Where all kinds are known, reading meets no foreign one; where they are not, it fails
at the first foreign kind that it looks at.

* `Gives`: a reading succeeds and what it gives has a property;
* `Reads`: what a reading gives has a property, and it fails only if failing is allowed;
  `Reads.bind`, `Reads.firstHit`, `Reads.hits`, `Reads.hitAt` follow the readings that others are
  made of;
* `Enclosed`: nodes that are closed under what reading looks at, their kinds known unless failing is
  allowed;
* one lemma for each part of an expression, statement or function body.
-/

namespace LuaTypes

/-- A reading succeeds, and what it gives has a property. -/
def Gives {α : Type} (reading : Reading α) (P : α → Prop) : Prop := ∃ a, reading = .ok a ∧ P a

/-- What there may be has a property. -/
abbrev Every {α : Type} (P : α → Prop) (found : Option α) : Prop := ∀ a ∈ found, P a

/-- What a list holds has a property. -/
abbrev EveryIn {α : Type} (P : α → Prop) (found : List α) : Prop := ∀ a ∈ found, P a

theorem every_none {α : Type} {P : α → Prop} : Every P none := nofun

theorem every_some {α : Type} {P : α → Prop} {a : α} (h : P a) : Every P (some a) := fun b hb => by
  cases hb
  exact h

theorem everyIn_nil {α : Type} {P : α → Prop} : EveryIn P [] := nofun

/-- What a reading gives has a property. It fails only if failing is allowed. -/
structure Reads {α : Type} (fails : Prop) (reading : Reading α) (P : α → Prop) : Prop where
  ok : ∀ a, reading = .ok a → P a
  error : ∀ foreign, reading = .error foreign → fails

theorem Node.expr?_of_form_none {node : Node} {kind : Kind} (h : node.label = .known kind)
    (hform : kind.form? = none) : node.expr? = .ok none := by
  unfold expr?
  split
  · next hlabel => rw [hlabel] at h; cases h
  · next hlabel =>
    cases Label.known.inj (hlabel.symm.trans h)
    split
    · rfl
    · next hsome => rw [hform] at hsome; cases hsome

/-- A reading that goes on with another one and succeeds. -/
theorem reading_bind_eq_ok {α β : Type} {first : Reading α} {f : α → Reading β} {b : β} :
    (first >>= f) = .ok b ↔ ∃ a, first = .ok a ∧ f a = .ok b := by
  cases first with
  | error foreign => exact ⟨nofun, fun ⟨_, h, _⟩ => nomatch h⟩
  | ok a => exact ⟨fun h => ⟨a, rfl, h⟩, fun ⟨_, rfl, h⟩ => h⟩

namespace Gives

variable {α : Type} {reading : Reading α} {P : α → Prop}

/-- What is read without failure has the property that all that is read has. -/
theorem of_ok (h : Gives reading P) {a : α} (ha : reading = .ok a) : P a := by
  obtain ⟨a', hok, hP⟩ := h
  cases ha.symm.trans hok
  exact hP

theorem reads (h : Gives reading P) : Reads False reading P := by
  refine ⟨fun a ha => h.of_ok ha, fun foreign hforeign => ?_⟩
  obtain ⟨a, hok, -⟩ := h
  cases hok.symm.trans hforeign

end Gives

namespace Reads

variable {α β : Type} {fails : Prop} {P : α → Prop} {Q : β → Prop}

/-- Where failing is not allowed, reading succeeds. -/
theorem gives {reading : Reading α} (h : Reads False reading P) : Gives reading P := by
  cases reading with
  | ok a => exact ⟨a, rfl, h.ok a rfl⟩
  | error foreign => exact (h.error foreign rfl).elim

/-- Where failing is allowed, only what is given matters. -/
theorem of_ok {reading : Reading α} (h : ∀ a, reading = .ok a → P a) : Reads True reading P :=
  ⟨h, fun _ _ => trivial⟩

theorem pure {a : α} (h : P a) : Reads fails (Pure.pure a) P := by
  refine ⟨fun b hb => ?_, nofun⟩
  cases hb
  exact h

theorem failed (h : fails) (foreign : ForeignKind) : Reads fails (.error foreign) P :=
  ⟨nofun, fun _ _ => h⟩

theorem bind {reading : Reading α} {f : α → Reading β} (h : Reads fails reading P)
    (hf : ∀ a, P a → Reads fails (f a) Q) : Reads fails (reading >>= f) Q := by
  cases reading with
  | ok a => exact hf a (h.ok a rfl)
  | error foreign => exact failed (h.error foreign rfl) foreign

theorem map {reading : Reading α} {f : α → β} (h : Reads fails reading P)
    (hf : ∀ a, P a → Q (f a)) : Reads fails (reading.map f) Q := by
  cases reading with
  | ok a => exact pure (hf a (h.ok a rfl))
  | error foreign => exact failed (h.error foreign rfl) foreign

theorem mono {reading : Reading α} {P' : α → Prop} (h : Reads fails reading P)
    (hP : ∀ a, P a → P' a) : Reads fails reading P' :=
  ⟨fun a ha => hP a (h.ok a ha), h.error⟩

/-- What a missing part is read as, or what comes of the part that there is. -/
theorem bind_option {reading : Reading (Option α)} {f : Option α → Reading β}
    (h : Reads fails reading (Every P)) (hnone : Reads fails (f none) Q)
    (hsome : ∀ a, P a → Reads fails (f (some a)) Q) : Reads fails (reading >>= f) Q :=
  h.bind fun found hfound => by
    cases found with
    | none => exact hnone
    | some a => exact hsome a (hfound a rfl)

theorem firstHit {look : α → Reading (Option β)} {as : List α}
    (h : ∀ a ∈ as, Reads fails (look a) (Every Q)) :
    Reads fails (firstHit look as) (Every Q) := by
  induction as with
  | nil => exact pure every_none
  | cons a rest ih =>
    obtain ⟨ha, hrest⟩ := List.forall_mem_cons.1 h
    simp only [LuaTypes.firstHit]
    cases hlook : look a with
    | error foreign => exact failed (ha.error foreign hlook) foreign
    | ok found =>
      cases found with
      | none => exact ih hrest
      | some b => exact pure (ha.ok _ hlook)

theorem hits {look : α → Reading (Option β)} {as : List α}
    (h : ∀ a ∈ as, Reads fails (look a) (Every Q)) : Reads fails (hits look as) (EveryIn Q) := by
  induction as with
  | nil => exact pure everyIn_nil
  | cons a rest ih =>
    obtain ⟨ha, hrest⟩ := List.forall_mem_cons.1 h
    simp only [LuaTypes.hits]
    cases hlook : look a with
    | error foreign => exact failed (ha.error foreign hlook) foreign
    | ok found =>
      cases found with
      | none => exact ih hrest
      | some b =>
        refine (ih hrest).map fun bs hbs => ?_
        exact List.forall_mem_cons.2 ⟨ha.ok _ hlook b rfl, hbs⟩

theorem hitAt {look : α → Reading (Option β)} {as : List α} (index : Nat)
    (h : ∀ a ∈ as, Reads fails (look a) (Every Q)) :
    Reads fails (hitAt look index as) (Every Q) := by
  induction as generalizing index with
  | nil => exact pure every_none
  | cons a rest ih =>
    obtain ⟨ha, hrest⟩ := List.forall_mem_cons.1 h
    cases hlook : look a with
    | error foreign =>
      simp only [LuaTypes.hitAt, hlook]
      exact failed (ha.error foreign hlook) foreign
    | ok found =>
      cases found with
      | none =>
        simp only [LuaTypes.hitAt, hlook]
        exact ih index hrest
      | some b =>
        cases index with
        | zero =>
          simp only [LuaTypes.hitAt, hlook]
          exact pure (ha.ok _ hlook)
        | succ index =>
          simp only [LuaTypes.hitAt, hlook]
          exact ih index hrest

end Reads

/-- Nodes that are closed under what reading looks at. Their kinds are known, unless failing is
allowed. -/
structure Enclosed (fails : Prop) (S : Node → Prop) : Prop where
  known : ∀ {node}, S node → fails ∨ ∃ kind, node.label = .known kind
  below : ∀ {node other}, S node → other ∈ node.preorder → S other
  above : ∀ {node other}, S node → other ∈ node.ancestors → S other

namespace Enclosed

variable {fails : Prop} {S : Node → Prop} {node : Node}

/-- An expression whose node is one of these. -/
abbrev IsExprOf (S : Node → Prop) (e : Expr) : Prop := S e.node

theorem children (h : Enclosed fails S) (hnode : S node) {child : Node}
    (hchild : child ∈ node.children) : S child :=
  h.below hnode (Node.children_subset_preorder node hchild)

theorem parent (h : Enclosed fails S) (hnode : S node) {other : Node}
    (hother : node.parent? = some other) : S other :=
  h.above hnode (Node.mem_ancestors_of_parent hother)

theorem kind (h : Enclosed fails S) (hnode : S node) : Reads fails node.kind fun _ => True := by
  refine ⟨fun _ _ => trivial, fun foreign hforeign => ?_⟩
  rcases h.known hnode with hfails | ⟨kind, hlabel⟩
  · exact hfails
  · rw [Node.kind, hlabel] at hforeign
    cases hforeign

theorem ofKind? (h : Enclosed fails S) (hnode : S node) (kind : Kind) :
    Reads fails (node.ofKind? kind) (Every S) :=
  (h.kind hnode).map fun k _ found hfound => by
    split at hfound
    · cases hfound
      exact hnode
    · cases hfound

theorem stmt? (h : Enclosed fails S) (hnode : S node) : Reads fails node.stmt? (Every S) :=
  (h.kind hnode).map fun k _ found hfound => by
    split at hfound
    · cases hfound
      exact hnode
    · cases hfound

theorem expr? (h : Enclosed fails S) (hnode : S node) :
    Reads fails node.expr? (Every (IsExprOf S)) := by
  have hkind := h.kind hnode
  unfold Node.expr?
  split
  · next code hlabel =>
    rw [Node.kind, hlabel] at hkind
    exact .failed (hkind.error _ rfl) _
  · split
    · exact .pure every_none
    · exact .pure (every_some hnode)

/-! ### Children -/

theorem childOfKind (h : Enclosed fails S) (hnode : S node) (kind : Kind) :
    Reads fails (node.childOfKind kind) (Every S) :=
  .firstHit fun _ hchild => h.ofKind? (h.children hnode hchild) kind

theorem childrenOfKind (h : Enclosed fails S) (hnode : S node) (kind : Kind) :
    Reads fails (node.childrenOfKind kind) (EveryIn S) :=
  .hits fun _ hchild => h.ofKind? (h.children hnode hchild) kind

theorem firstExpr (h : Enclosed fails S) (hnode : S node) :
    Reads fails node.firstExpr (Every (IsExprOf S)) :=
  .firstHit fun _ hchild => h.expr? (h.children hnode hchild)

theorem secondExpr (h : Enclosed fails S) (hnode : S node) :
    Reads fails node.secondExpr (Every (IsExprOf S)) :=
  .hitAt 1 fun _ hchild => h.expr? (h.children hnode hchild)

theorem exprs (h : Enclosed fails S) (hnode : S node) :
    Reads fails node.exprs (EveryIn (IsExprOf S)) :=
  .hits fun _ hchild => h.expr? (h.children hnode hchild)

theorem listedExprs (h : Enclosed fails S) (hnode : S node) :
    Reads fails node.listedExprs (EveryIn (IsExprOf S)) :=
  (h.childOfKind hnode .exprList).bind_option (.pure everyIn_nil) fun _ hlist => h.exprs hlist

/-! ### Parts of expressions -/

theorem callArgList (h : Enclosed fails S) (hnode : S node) :
    Reads fails (Call.argList node) (Every S) :=
  h.childOfKind hnode .argList

theorem stringArg (h : Enclosed fails S) (hnode : S node) :
    Reads fails (Call.stringArg node) fun _ => True :=
  (h.callArgList hnode).bind_option (.pure trivial) fun _ hlist =>
    (h.firstExpr hlist).bind fun _ _ => .pure trivial

theorem memberName (h : Enclosed fails S) (hnode : S node) :
    Reads fails (Index.memberName node) fun _ => True := by
  unfold Index.memberName
  split
  · exact .pure trivial
  · exact (h.secondExpr hnode).map fun _ _ => trivial

/-! ### Parts of statements and bodies -/

theorem localNames (h : Enclosed fails S) (hnode : S node) :
    Reads fails (LocalStmt.names node) (EveryIn S) :=
  (h.childOfKind hnode .nameList).bind_option (.pure everyIn_nil) fun _ hlist =>
    h.childrenOfKind hlist .name

theorem initializer (h : Enclosed fails S) (hnode : S node) (index : Nat) :
    Reads fails (LocalStmt.initializer node index) (Every (IsExprOf S)) :=
  (h.listedExprs hnode).map fun _ hes _ he => hes _ (List.mem_of_getElem? he)

theorem firstOfReturn (h : Enclosed fails S) (hnode : S node) :
    Reads fails (ReturnStmt.first node) (Every (IsExprOf S)) :=
  (h.listedExprs hnode).map fun _ hes _ he => hes _ (List.mem_of_head? he)

theorem firstReturned (h : Enclosed fails S) (hnode : S node) :
    Reads fails (SourceFile.firstReturned node) (Every (IsExprOf S)) := by
  have hreturn : Reads fails (SourceFile.returnStmt node) (Every S) :=
    (h.childOfKind hnode .block).bind_option (.pure every_none) fun _ hblock =>
      h.childOfKind hblock .returnStmt
  exact hreturn.bind_option (.pure every_none) fun _ hret => h.firstOfReturn hret

theorem params (h : Enclosed fails S) (hnode : S node) :
    Reads fails (Body.params node) (EveryIn S) :=
  (h.childOfKind hnode .paramList).bind_option (.pure everyIn_nil) fun _ hlist =>
    h.childrenOfKind hlist .name

theorem owner (h : Enclosed fails S) (hnode : S node) : Reads fails (Body.owner node) (Every S) :=
  .firstHit fun _ hother => h.ofKind? (h.above hnode hother) .funcBody

theorem ownReturn? (h : Enclosed fails S) (body : Node) (hnode : S node) :
    Reads fails (Body.ownReturn? body node) (Every S) :=
  (h.ofKind? hnode .returnStmt).bind_option (.pure every_none) fun ret hret =>
    (h.owner hret).bind fun owner _ => by
      split
      · exact .pure (every_some hret)
      · exact .pure every_none

theorem returns (h : Enclosed fails S) (hnode : S node) :
    Reads fails (Body.returns node) (EveryIn S) :=
  .hits fun _ hother => h.ownReturn? node (h.below hnode hother)

end Enclosed

end LuaTypes
