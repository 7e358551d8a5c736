import LuaTypes.Proofs.Inference.Contributions
import LuaTypes.Proofs.Inference.Members
import LuaTypes.Proofs.Tree.Parts

/-!
# What the call of a constructor gives

A class whose members are known may have a constructor that is declared to return the class by its
name only. The call of the constructor unites what is declared with the type of the owner. The two
are equal, and a union of equal types is the first of them: so the members of the owner get lost,
and no member of what is constructed is known.

* `Codebase.Settled.name`, `Codebase.Settled.index`, `Codebase.Settled.constructor`: plain recursion
  on names, on members and on calls of constructors;
* `Ty.DeclaresConstructor`: a class with such a constructor;
* `Codebase.constructed_members`: the members of what is constructed, and those of the class.
-/

namespace LuaTypes

/-! ### Plain recursion, form by form -/

theorem typeOfCallee_of_known {codebase : Codebase} {call : Filed Node} {ty : Ty}
    (h : (Call.direct ty).isUnknown = false) :
    typeOfCallee codebase call ty = .done (Call.direct ty) := by
  rw [typeOfCallee, h]
  rfl

theorem typeOfOwner_of_constructor {codebase : Codebase} {callee : Filed Expr} {owner : Expr}
    {name : String} (hindex : callee.value.form = .index)
    (hname : Index.memberName callee.value.node = .ok (some name))
    (hconstructor : codebase.conventions.isConstructor name = true)
    (howner : Index.base callee.value.node = .ok (some owner)) :
    typeOfOwner codebase callee = .typeOf (callee.replace owner) >>= fun ty => .done (some ty) := by
  rw [typeOfOwner, hindex]
  simp only [hname, howner]
  show (if codebase.conventions.isConstructor name = true then _ else _) = _
  rw [if_pos hconstructor]
  rfl

namespace Codebase.Settled

variable {codebase : Codebase} {reach : Reach} {e : Filed Expr}

/-- A name whose type is known beforehand. -/
theorem name (hform : e.value.form = .name) {ty : Ty}
    (hbinding : codebase.bindingOf (e.replace e.value.node) = .ok (some (.annotated ty))) :
    codebase.Settled reach e ty := by
  refine ⟨1, ?_⟩
  rw [unguarded, LuaTypes.typeOf, hform]
  simp only [typeOfName, hbinding]
  rfl

/-- A member of an object. -/
theorem index (hform : e.value.form = .index) {base : Expr} {name : String}
    (hbase : Index.base e.value.node = .ok (some base))
    (hname : Index.memberName e.value.node = .ok (some name)) {ty : Ty}
    (h : codebase.Settled reach (e.replace base) ty) :
    codebase.Settled reach e (memberType ty name) := by
  obtain ⟨steps, h⟩ := h
  refine ⟨steps + 1, ?_⟩
  rw [unguarded, LuaTypes.typeOf, hform]
  show (typeOfIndex (e.replace e.value.node)).eval _ = _
  rw [typeOfIndex_of_read hbase hname, Inquiry.eval_bind, Inquiry.eval_typeOf]
  exact Option.bind_eq_some_iff.2 ⟨ty, h, rfl⟩

/-- A call of a constructor whose own type says something. -/
theorem constructor (hform : e.value.form = .call) {callee owner : Expr} {name : String}
    (hcallee : Call.callee e.value.node = .ok (some callee))
    (hloader : codebase.conventions.isLoader (Text.trimmed callee.text) = false)
    (hindex : callee.form = .index) (hname : Index.memberName callee.node = .ok (some name))
    (hconstructor : codebase.conventions.isConstructor name = true)
    (hbase : Index.base callee.node = .ok (some owner)) {ty : Ty}
    (h : codebase.Settled reach (e.replace owner) ty)
    (hknown : (Call.direct (memberType ty name)).isUnknown = false) :
    codebase.Settled reach e (Call.withOwner (Call.direct (memberType ty name)) ty) := by
  have hsettled : codebase.Settled reach (e.replace callee) (memberType ty name) :=
    index hindex hbase hname h
  obtain ⟨steps, h⟩ := h
  obtain ⟨steps', hsettled⟩ := hsettled
  refine ⟨max steps steps' + 1, ?_⟩
  have howner := unguarded_mono (Nat.le_max_left steps steps') h
  have hcalled := unguarded_mono (Nat.le_max_right steps steps') hsettled
  rw [unguarded, LuaTypes.typeOf, hform]
  show (typeOfCall codebase reach (e.replace e.value.node)).eval _ = _
  rw [typeOfCall_given codebase reach hcallee hloader, Inquiry.eval_bind, Inquiry.eval_typeOf]
  refine Option.bind_eq_some_iff.2 ⟨_, hcalled, ?_⟩
  rw [typeOfCallGiven, typeOfCallee_of_known hknown, Inquiry.done_bind,
    typeOfOwner_of_constructor hindex hname hconstructor hbase, Inquiry.bind_assoc,
    Inquiry.eval_bind, Inquiry.eval_typeOf]
  exact Option.bind_eq_some_iff.2 ⟨_, howner, rfl⟩

end Codebase.Settled

/-! ### Classes whose constructor names them only -/

namespace Ty

variable {n k : String} {members : List Member}

/-- A class declares a member as a function all of whose signatures return the class by its name
only. -/
def DeclaresConstructor (n : String) (members : List Member) (k : String) : Prop :=
  ∃ signatures, (object n members).member? k = some (.function signatures) ∧ signatures ≠ [] ∧
    ∀ s ∈ signatures, s.ret = .ofClass n

/-- The constructor's own type gives the class by its name only. -/
theorem DeclaresConstructor.direct (h : DeclaresConstructor n members k) :
    Call.direct (memberType (object n members) k) = .ofClass n := by
  obtain ⟨signatures, hmember, hne, hret⟩ := h
  have htype : memberType (object n members) k = .function signatures := by
    simp only [LuaTypes.memberType, alternatives, List.filterMap_cons, hmember, List.filterMap_nil]
    exact joinAll_of_forall_eq rfl (by simp) (by simp)
  obtain ⟨s, hs⟩ := List.exists_mem_of_ne_nil _ hne
  rw [htype, Call.direct]
  apply joinAll_of_forall_eq rfl
  · refine List.ne_nil_of_mem (Call.mem_contributions_function.2 ⟨⟨s, hs, rfl⟩, ?_⟩)
    rw [hret s hs]
    rfl
  · intro ty hty
    obtain ⟨⟨s, hs, rfl⟩, -⟩ := Call.mem_contributions_function.1 hty
    exact hret s hs

/-- What is declared and the owner are equal, so that the union of them is what is declared. -/
theorem withOwner_ofClass (n : String) (members : List Member) :
    Call.withOwner (.ofClass n) (object n members) = .ofClass n := by
  show (ofClass n).join (object n members) = _
  exact join_of_beq (by simp [ofClass, Ty.same])

end Ty

/-! ### Members of what is constructed -/

namespace Codebase

/-- An expression reads a member of a name, of which a type is known beforehand. -/
structure ReadsMember (codebase : Codebase) (c f : String) (ty : Ty) (e : Filed Expr) : Prop where
  isIn : codebase.HasExpr e
  tree : e.value.tree = Build.field (Build.name c) f
  known : ∃ base, Index.base e.value.node = .ok (some base) ∧
    codebase.bindingOf (e.replace base.node) = .ok (some (.annotated ty))

/-- An expression reads a member of what is constructed: of a call, whatever its arguments are, that
loads no module and calls a member or a method of a name, of which a type is known beforehand. -/
structure ReadsConstructed (codebase : Codebase) (c k f : String) (ty : Ty) (e : Filed Expr) :
    Prop where
  isIn : codebase.HasExpr e
  tree : ∃ target call,
    (target = Build.field (Build.name c) k ∨ target = Build.method (Build.name c) k) ∧
    codebase.conventions.isLoader (Text.trimmed target.text) = false ∧
    ((∃ args, call = Build.call target args) ∨ ∃ value, call = Build.stringCall target value) ∧
    e.value.tree = Build.field call f
  known : ∃ call callee owner, Index.base e.value.node = .ok (some call) ∧
    Call.callee call.node = .ok (some callee) ∧ Index.base callee.node = .ok (some owner) ∧
    codebase.bindingOf (e.replace owner.node) = .ok (some (.annotated ty))

variable {codebase : Codebase} {reach : Reach} {c k f n : String} {members : List Member}
  {e : Filed Expr}

/-- The parts of a member or a method of a name. -/
theorem parts_of_member {callee : Expr} {target : Tree}
    (htarget : target = Build.field (Build.name c) k ∨ target = Build.method (Build.name c) k)
    (h : callee.tree = target) :
    callee.form = .index ∧ GivesPart Expr.tree (Index.base callee.node) (Build.name c) ∧
      Index.memberName callee.node = .ok (some k) := by
  rcases htarget with rfl | rfl
  · obtain ⟨hbase, -, hmember, -⟩ := Index.parts_of_field h rfl
    exact ⟨Expr.form_of_kind? (by rw [h]; rfl), hbase, hmember⟩
  · obtain ⟨hbase, -, hmember, -⟩ := Index.parts_of_method h rfl
    exact ⟨Expr.form_of_kind? (by rw [h]; rfl), hbase, hmember⟩

/-- The callee of a call, with parentheses or without. -/
theorem callee_of_called {called : Expr} {target call : Tree} (hexpr : target.isExpr = true)
    (hcalls : (∃ args, call = Build.call target args) ∨
      ∃ value, call = Build.stringCall target value)
    (h : called.tree = call) :
    called.form = .call ∧ GivesPart Expr.tree (Call.callee called.node) target := by
  rcases hcalls with ⟨args, rfl⟩ | ⟨value, rfl⟩
  · exact ⟨Expr.form_of_kind? (by rw [h]; rfl), Call.callee_of_call h hexpr⟩
  · exact ⟨Expr.form_of_kind? (by rw [h]; rfl), (Call.parts_of_stringCall h hexpr).1⟩

theorem ReadsMember.settled {ty : Ty} (h : codebase.ReadsMember c f ty e) :
    codebase.Settled reach e (memberType ty f) := by
  obtain ⟨base, hbase, hbinding⟩ := h.known
  obtain ⟨⟨base', hbase', htree⟩, -, hname, -⟩ := Index.parts_of_field h.tree rfl
  cases hbase.symm.trans hbase'
  have hform : base.form = .name := Expr.form_of_kind? (by rw [htree]; rfl)
  refine .index (Expr.form_of_kind? (by rw [h.tree]; rfl)) hbase hname ?_
  exact .name hform hbinding

theorem ReadsConstructed.settled
    (h : codebase.ReadsConstructed c k f (.object n members) e)
    (hconstructor : codebase.conventions.isConstructor k = true)
    (hdeclares : Ty.DeclaresConstructor n members k) : codebase.Settled reach e .unknown := by
  obtain ⟨target, call, htarget, hloader, hcalls, htree⟩ := h.tree
  obtain ⟨called, callee, owner, hcalled, hcallee, howner, hbinding⟩ := h.known
  have hcallexpr : call.isExpr = true := by rcases hcalls with ⟨args, rfl⟩ | ⟨value, rfl⟩ <;> rfl
  obtain ⟨⟨called', hcalled', hcalledtree⟩, -, hname, -⟩ := Index.parts_of_field htree hcallexpr
  cases hcalled.symm.trans hcalled'
  obtain ⟨hcalledform, callee', hcallee', hcalleetree⟩ :=
    callee_of_called (by rcases htarget with rfl | rfl <;> rfl) hcalls hcalledtree
  cases hcallee.symm.trans hcallee'
  obtain ⟨hform, ⟨owner', howner', hownertree⟩, hmember⟩ := parts_of_member htarget hcalleetree
  cases howner.symm.trans howner'
  have hownerform : owner.form = .name := Expr.form_of_kind? (by rw [hownertree]; rfl)
  have hclass : codebase.Settled reach (e.replace owner) (.object n members) :=
    .name hownerform hbinding
  have hgiven : codebase.Settled reach (e.replace called) (.ofClass n) := by
    rw [← Ty.withOwner_ofClass n members, ← hdeclares.direct]
    refine .constructor hcalledform hcallee ?_ hform hmember hconstructor howner hclass ?_
    · rwa [← Expr.text_tree, hcalleetree]
    · rw [hdeclares.direct]
      rfl
  exact .index (Expr.form_of_kind? (by rw [htree]; rfl)) hcalled hname hgiven

end Codebase

/-- No member of what is constructed is known, whatever the class declares. So it has the type of
the member of the class just where the class declares none or one of which nothing is known. -/
theorem Codebase.constructed_members {codebase : Codebase} (hclosed : codebase.Closed)
    {reach : Reach} {c k f n : String} {members : List Member}
    (hproper : (Ty.object n members).isProper = true)
    (hconstructor : codebase.conventions.isConstructor k = true)
    (hdeclares : Ty.DeclaresConstructor n members k) {read constructed : Filed Expr}
    (hread : codebase.ReadsMember c f (.object n members) read)
    (hconstructed : codebase.ReadsConstructed c k f (.object n members) constructed)
    {memo memo' : Option Memo} (hmemo : Memo.IsFaithful codebase memo)
    (hmemo' : Memo.IsFaithful codebase memo') :
    (codebase.inferFresh reach memo constructed).1 = .value .unknown ∧
    (codebase.inferFresh reach memo' read).1 =
      .value (((Ty.object n members).member? f).getD .unknown) ∧
    ((codebase.inferFresh reach memo constructed).1 = (codebase.inferFresh reach memo' read).1 ↔
      ∀ ty, (Ty.object n members).member? f = some ty → ty = .unknown) := by
  have hlost : (codebase.inferFresh reach memo constructed).1 = .value .unknown :=
    inferFresh_of_settled hclosed hconstructed.isIn (hconstructed.settled hconstructor hdeclares)
      hmemo
  have hkept : (codebase.inferFresh reach memo' read).1 =
      .value (((Ty.object n members).member? f).getD .unknown) := by
    rw [← Ty.memberType_of_not_union hproper rfl]
    exact inferFresh_of_settled hclosed hread.isIn hread.settled hmemo'
  refine ⟨hlost, hkept, ?_⟩
  rw [hlost, hkept]
  cases (Ty.object n members).member? f with
  | none => simp
  | some ty => simpa using eq_comm

namespace Project

open Build

/-- A member and a constructor that returns the class `C`, declared by its name. -/
def pointMembers : List Member := [.mk "x" .number, .mk "new" (.ofSignature [] (.ofClass "C"))]

/-- A variable begins with the member `x` of the class `C`, and the file returns the member `x` of
what is constructed. -/
def point : Project :=
  (declaring (localStmt ["x"] [field (name "C") "x"])
    (field (call (field (name "C") "new") []) "x")).withGlobal "C" (.object "C" pointMembers)

theorem made_point : ∀ tree ∈ point.files, Made tree :=
  made_declaring (.localStmt _ (made_one (.field (.name _) _)))
    (.field (.call (.field (.name _) _) (List.forall_mem_nil _)) _)

theorem declaresConstructor_point : Ty.DeclaresConstructor "C" pointMembers "new" :=
  ⟨_, rfl, List.cons_ne_nil _ _, List.forall_mem_singleton.2 rfl⟩

theorem exists_reads_point :
    ∃ read constructed, point.codebase.expr? ⟨0, 0⟩ = .ok (some read) ∧
      point.codebase.expr? ⟨0, 2⟩ = .ok (some constructed) ∧
      point.codebase.ReadsMember "C" "x" (.object "C" pointMembers) read ∧
      point.codebase.ReadsConstructed "C" "new" "x" (.object "C" pointMembers) constructed := by
  have hclosed := closed made_point
  refine ⟨_, _, rfl, rfl, ⟨?_, rfl, _, rfl, rfl⟩, ?_, ?_, _, _, _, rfl, rfl, rfl, rfl⟩
  · exact hclosed.hasExpr_of_expr? (show point.codebase.expr? ⟨0, 0⟩ = _ from rfl)
  · exact hclosed.hasExpr_of_expr? (show point.codebase.expr? ⟨0, 2⟩ = _ from rfl)
  · exact ⟨_, _, .inl rfl, by decide +kernel, .inl ⟨[], rfl⟩, rfl⟩

theorem constructed_members_point :
    ∃ read constructed, point.codebase.expr? ⟨0, 0⟩ = .ok (some read) ∧
      point.codebase.expr? ⟨0, 2⟩ = .ok (some constructed) ∧
      (point.codebase.inferFresh .full none constructed).1 = .value .unknown ∧
      (point.codebase.inferFresh .full none read).1 = .value .number ∧
      ((point.codebase.inferFresh .full none constructed).1 =
          (point.codebase.inferFresh .full none read).1 ↔
        ∀ ty, (Ty.object "C" pointMembers).member? "x" = some ty → ty = .unknown) := by
  obtain ⟨read, constructed, hexpr, hexpr', hread, hconstructed⟩ := exists_reads_point
  exact ⟨read, constructed, hexpr, hexpr', Codebase.constructed_members (closed made_point)
    (by decide) (by decide +kernel) declaresConstructor_point hread hconstructed
    Codebase.isFaithful_none Codebase.isFaithful_none⟩

/-- The member of the class is a number, and that of what is constructed is unknown. -/
theorem point_member_lost :
    point.codebase.conventions.isConstructor "new" = true ∧
    Ty.DeclaresConstructor "C" pointMembers "new" ∧
    ∃ read constructed, point.codebase.expr? ⟨0, 0⟩ = .ok (some read) ∧
      point.codebase.expr? ⟨0, 2⟩ = .ok (some constructed) ∧
      point.codebase.ReadsMember "C" "x" (.object "C" pointMembers) read ∧
      point.codebase.ReadsConstructed "C" "new" "x" (.object "C" pointMembers) constructed ∧
      (point.codebase.inferFresh .full none read).1 = .value .number ∧
      (point.codebase.inferFresh .full none constructed).1 = .value .unknown := by
  have hclosed := closed made_point
  have hconstructor : point.codebase.conventions.isConstructor "new" = true := by decide +kernel
  obtain ⟨read, constructed, hexpr, hexpr', hread, hconstructed⟩ := exists_reads_point
  refine ⟨hconstructor, declaresConstructor_point, read, constructed, hexpr, hexpr', hread,
    hconstructed, ?_, ?_⟩
  · exact Codebase.inferFresh_of_settled hclosed hread.isIn hread.settled Codebase.isFaithful_none
  · exact Codebase.inferFresh_of_settled hclosed hconstructed.isIn
      (hconstructed.settled hconstructor declaresConstructor_point) Codebase.isFaithful_none

end Project

end LuaTypes
