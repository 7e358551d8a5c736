import LuaTypes.Proofs.Inference.Asks
import LuaTypes.Proofs.Project.Testing
import LuaTypes.Proofs.Ty.Semilattice

/-!
# Members of equal types

A class is its name, whatever members are known of it, and of equal alternatives a union keeps the
first. Members are looked up in what was kept. So equal types have members of equal types as far as
their equal alternatives declare them alike, and no further: of two classes that declare a member
differently, an index tells the one from the other, and the order of a union shows.

* `Ty.DeclareAlike`: two alternatives declare a member alike;
* `Ty.Agree.memberType`, `Ty.agree_memberType_join`: then it has equal types;
* `Ty.memberType_join_class`: its type where another class declares it, too;
* `Ty.declareAlike_of_indistinct`: classes that no index tells apart declare all members alike;
* `Ty.members_of_equal`: when equal types have equal members.
-/

namespace LuaTypes

theorem typeOfIndex_of_read {index : Filed Node} {base : Expr} {name : String}
    (hbase : Index.base index.value = .ok (some base))
    (hname : Index.memberName index.value = .ok (some name)) :
    typeOfIndex index =
      .typeOf (index.replace base) >>= fun ty => .done (memberType ty name) := by
  rw [typeOfIndex, hbase, hname]
  rfl

namespace Ty

variable {a b x y z : Ty} {name : String}

/-- Neither of two alternatives declares a member, or both do, with equal types. -/
def DeclareAlike (x y : Ty) (name : String) : Prop :=
  Option.Rel (fun ty ty' => (ty == ty') = true) (x.member? name) (y.member? name)

namespace DeclareAlike

theorem refl (x : Ty) (name : String) : DeclareAlike x x name := by
  unfold DeclareAlike
  cases x.member? name with
  | none => exact .none
  | some ty => exact .some (by rw [beq_eq, same_self])

theorem symm (hx : x.isProper = true) (hy : y.isProper = true) (h : DeclareAlike x y name) :
    DeclareAlike y x name := by
  unfold DeclareAlike at *
  generalize htx : x.member? name = found at *
  generalize hty : y.member? name = found' at *
  cases h with
  | none => exact .none
  | some h =>
    have hproper := isProper_of_member? hx htx
    exact .some (agree_of_beq hproper (isProper_of_member? hy hty) h).symm.beq

/-- A member that one alternative declares, the other declares with a type that agrees. -/
theorem exists_member (h : DeclareAlike x y name) (hx : x.isProper = true) (hy : y.isProper = true)
    {ty : Ty} (hty : x.member? name = some ty) :
    ∃ ty', y.member? name = some ty' ∧ ty.Agree ty' := by
  unfold DeclareAlike at h
  rw [hty] at h
  generalize hty' : y.member? name = found at h
  cases h with
  | some h =>
    exact ⟨_, rfl, agree_of_beq (isProper_of_member? hx hty) (isProper_of_member? hy hty') h⟩

end DeclareAlike

/-! ### Alternatives that declare members alike -/

theorem isProper_of_mem_members (ha : a.isProper = true) {ty : Ty}
    (h : ty ∈ a.alternatives.filterMap (member? name)) : ty.isProper = true := by
  obtain ⟨x, hx, hmember⟩ := List.mem_filterMap.1 h
  exact isProper_of_member? ((areAlternatives ha).proper x hx) hmember

/-- What an alternative of the one type declares of a member, one of the other declares alike. -/
def MembersFound (a b : Ty) (name : String) : Prop :=
  ∀ x ∈ a.alternatives, ∃ y ∈ b.alternatives, DeclareAlike x y name

theorem MembersFound.has (h : MembersFound a b name) (ha : a.isProper = true)
    (hb : b.isProper = true) {alt : Ty}
    (halt : ∃ ty ∈ a.alternatives.filterMap (member? name), ty.Has alt) :
    ∃ ty ∈ b.alternatives.filterMap (member? name), ty.Has alt := by
  obtain ⟨ty, hty, halt⟩ := halt
  obtain ⟨x, hx, hmember⟩ := List.mem_filterMap.1 hty
  obtain ⟨y, hy, hxy⟩ := h x hx
  obtain ⟨ty', hmember', hagree⟩ := hxy.exists_member ((areAlternatives ha).proper x hx)
    ((areAlternatives hb).proper y hy) hmember
  exact ⟨ty', List.mem_filterMap.2 ⟨y, hy, hmember'⟩, hagree.has halt⟩

theorem agree_memberType_of_found (ha : a.isProper = true) (hb : b.isProper = true)
    (h : MembersFound a b name) (hback : MembersFound b a name) :
    (memberType a name).Agree (memberType b name) := by
  apply joinAll_agree
  · intro ty hty
    exact isProper_of_mem_members ha hty
  · intro ty hty
    exact isProper_of_mem_members hb hty
  · intro alt
    exact ⟨h.has ha hb, hback.has hb ha⟩

/-- Types that agree have a member of equal types if their equal alternatives declare it alike. -/
theorem Agree.memberType (h : a.Agree b)
    (halike : ∀ x ∈ a.alternatives, ∀ y ∈ b.alternatives, (x == y) = true →
      DeclareAlike x y name) : (memberType a name).Agree (memberType b name) := by
  apply agree_memberType_of_found h.left h.right
  · intro x hx
    obtain ⟨y, hy, hxy⟩ := h.exists_alternative hx
    exact ⟨y, hy, halike x hx y hy hxy.beq⟩
  · intro y hy
    obtain ⟨x, hx, hyx⟩ := h.symm.exists_alternative hy
    exact ⟨x, hx, (halike x hx y hy hyx.symm.beq).symm hyx.right hyx.left⟩

/-! ### Unions -/

/-- Where equal alternatives of two types declare a member alike, those of their unions in either
order do. -/
theorem declareAlike_join (ha : a.isProper = true) (hb : b.isProper = true)
    (halike : ∀ x ∈ a.alternatives, ∀ y ∈ b.alternatives, (x == y) = true →
      DeclareAlike x y name)
    (hx : x ∈ (a.join b).alternatives) (hy : y ∈ (b.join a).alternatives) (h : (x == y) = true) :
    DeclareAlike x y name := by
  have hA := areAlternatives ha
  have hB := areAlternatives hb
  rcases mem_of_mem_join ha hb hx with hx | hx <;> rcases mem_of_mem_join hb ha hy with hy | hy
  · exact halike x hx y hy h
  · rw [hA.eq_of_agree hx hy (agree_of_beq (hA.proper x hx) (hA.proper y hy) h)]
    exact .refl y name
  · rw [hB.eq_of_agree hx hy (agree_of_beq (hB.proper x hx) (hB.proper y hy) h)]
    exact .refl y name
  · have hxy := agree_of_beq (hB.proper x hx) (hA.proper y hy) h
    exact (halike y hy x hx hxy.symm.beq).symm hxy.right hxy.left

/-- What is no union has the members that it declares. -/
theorem memberType_of_not_union (hx : x.isProper = true) (hflat : x.isUnion = false)
    (name : String) : memberType x name = (x.member? name).getD .unknown := by
  rw [LuaTypes.memberType, alternatives_of_not_union hflat]
  cases hty : x.member? name with
  | none =>
    simp only [List.filterMap_cons, hty]
    rfl
  | some ty =>
    simp only [List.filterMap_cons, List.filterMap_nil, hty]
    exact joinAll_singleton (isProper_of_member? hx hty)

theorem join_of_beq (h : (x == y) = true) : x.join y = x := by rw [join, if_pos h]

/-- Two alternatives that differ make a union of just these. -/
theorem alternatives_join_of_not_union (hx : x.isProper = true) (hz : z.isProper = true)
    (hflat : x.isUnion = false) (hflat' : z.isUnion = false) (hne : x.same z = false) :
    (x.join z).alternatives = [x, z] := by
  rw [alternatives_join hx hz hne, alternatives_of_not_union hflat,
    alternatives_of_not_union hflat']
  simp [insertNew, hne]

/-! ### Alternatives that no index tells apart -/

/-- Equal alternatives that declare all members alike may be put for one another in a union. -/
theorem agree_memberType_join (hxy : x.Agree y) (hflat : x.isUnion = false)
    (hflat' : y.isUnion = false) (hz : z.isProper = true) (h : DeclareAlike x y name) :
    (memberType (x.join z) name).Agree (memberType (y.join z) name) := by
  have hx := hxy.left
  have hy := hxy.right
  have hX := areAlternatives (isProper_join hx hz)
  have hY := areAlternatives (isProper_join hy hz)
  have hxmem : x ∈ (x.join z).alternatives :=
    mem_join_left hx hz (by simp [alternatives_of_not_union hflat])
  have hymem : y ∈ (y.join z).alternatives :=
    mem_join_left hy hz (by simp [alternatives_of_not_union hflat'])
  apply (join_congr hxy (.refl hz)).memberType
  intro p hp q hq hpq
  have hpq := agree_of_beq (hX.proper p hp) (hY.proper q hq) hpq
  -- an alternative that equals `x` is `x` in the one union and `y` in the other
  by_cases hpx : p.Agree x
  · rw [hX.eq_of_agree hp hxmem hpx, hY.eq_of_agree hq hymem (hpq.symm.trans (hpx.trans hxy))]
    exact h
  · have hqy : ¬q.Agree y := fun hqy => hpx (hpq.trans (hqy.trans hxy.symm))
    have hpz : p ∈ z.alternatives := by
      rcases mem_of_mem_join hx hz hp with hmem | hmem
      · rw [alternatives_of_not_union hflat, List.mem_singleton] at hmem
        exact (hpx (by rw [hmem]; exact .refl hx)).elim
      · exact hmem
    have hqz : q ∈ z.alternatives := by
      rcases mem_of_mem_join hy hz hq with hmem | hmem
      · rw [alternatives_of_not_union hflat', List.mem_singleton] at hmem
        exact (hqy (by rw [hmem]; exact .refl hy)).elim
      · exact hmem
    rw [(areAlternatives hz).eq_of_agree hpz hqz hpq]
    exact .refl q name

/-- The union of an alternative with a class of another name that declares the member, too. -/
theorem memberType_join_class {n : String} {members : List Member} {ty : Ty}
    (hx : (object n members).isProper = true) (hty : ty.isProper = true) (name : String) :
    memberType ((object n members).join (.object (n ++ "+") [.mk name ty])) name =
      joinAll (((object n members).member? name).toList ++ [ty]) := by
  have hother : (object (n ++ "+") [.mk name ty]).isProper = true := by
    simp [Ty.isProper, properMembers, Member.isProper, hty]
  have hne : (object n members).same (.object (n ++ "+") [.mk name ty]) = false := by
    have hname : n ≠ n ++ "+" := fun h => by simpa using congrArg String.length h
    simpa [Ty.same] using hname
  have hdeclared : (object (n ++ "+") [.mk name ty]).member? name = some ty := by simp [member?]
  rw [LuaTypes.memberType, alternatives_join_of_not_union hx hother rfl rfl hne]
  cases h : (object n members).member? name <;> simp only [List.filterMap_cons, h, hdeclared] <;>
    rfl

/-- A member that one of two equal classes declares, the other declares if no index into a union
tells them apart. -/
theorem isSome_of_indistinct {n : String} {members members' : List Member}
    (hx : (object n members).isProper = true) (hy : (object n members').isProper = true)
    (h : ∀ z : Ty, z.isProper = true → (memberType ((object n members).join z) name ==
      memberType ((object n members').join z) name) = true)
    (hmember : ((object n members).member? name).isSome = true) :
    ((object n members').member? name).isSome = true := by
  obtain ⟨tx, htx⟩ := Option.isSome_iff_exists.1 hmember
  have htxproper := isProper_of_member? hx htx
  by_contra hnone
  rw [Bool.not_eq_true, Option.isSome_eq_false_iff, Option.isNone_iff_eq_none] at hnone
  -- beside another class that declares the member, what the first declares must not show
  have hhidden : ∀ t : Ty, t.isProper = true → t.isUnion = false → tx.Agree t := by
    intro t ht hflat
    have hz : (object (n ++ "+") [.mk name t]).isProper = true := by
      simp [Ty.isProper, properMembers, Member.isProper, ht]
    have hboth : ∀ ty ∈ [tx, t], ty.isProper = true := by simp [htxproper, ht]
    have hjoined := h _ hz
    rw [memberType_join_class hx ht, memberType_join_class hy ht, htx, hnone] at hjoined
    have hagree : (joinAll [tx, t]).Agree t := by
      refine agree_of_beq (isProper_joinAll hboth) ht ?_
      simpa [joinAll_singleton ht] using hjoined
    have hhas : ∀ alt, tx.Has alt → t.Has alt := fun alt halt =>
      hagree.has ((has_joinAll hboth (by simp)).2 ⟨tx, by simp, halt⟩)
    apply agree_of_has htxproper ht
    intro alt
    refine ⟨hhas alt, fun halt => ?_⟩
    obtain ⟨alt', halt'⟩ := exists_has htxproper
    have hagree' := (has_iff_agree hflat).1 (hhas alt' halt')
    have : alt'.Agree alt := hagree'.symm.trans ((has_iff_agree hflat).1 halt)
    obtain ⟨w, hw, hwalt⟩ := halt'
    exact ⟨w, hw, hwalt.trans this⟩
  have hclash := (hhidden .nil rfl rfl).symm.trans (hhidden .number rfl rfl)
  cases hclash.same

/-- Classes that no index into a union tells apart declare every member alike. -/
theorem declareAlike_of_indistinct {n : String} {members members' : List Member}
    (hx : (object n members).isProper = true) (hy : (object n members').isProper = true)
    (h : ∀ z : Ty, z.isProper = true → (memberType ((object n members).join z) name ==
      memberType ((object n members').join z) name) = true) :
    DeclareAlike (object n members) (object n members') name := by
  have hback : ∀ z : Ty, z.isProper = true → (memberType ((object n members').join z) name ==
      memberType ((object n members).join z) name) = true := by
    intro z hz
    have hleft := isProper_memberType (isProper_join hx hz) name
    have hright := isProper_memberType (isProper_join hy hz) name
    exact (agree_of_beq hleft hright (h z hz)).symm.beq
  have hsame : (object n members' == object n members) = true := by simp [Ty.same]
  have halone := h _ hx
  rw [join_self, join_of_beq hsame, memberType_of_not_union hx rfl,
    memberType_of_not_union hy rfl] at halone
  have hsome := isSome_of_indistinct hx hy h
  have hsome' := isSome_of_indistinct hy hx hback
  unfold DeclareAlike
  cases htx : (object n members).member? name <;> cases hty : (object n members').member? name
  · exact .none
  · simp [htx, hty] at hsome'
  · simp [htx, hty] at hsome
  · rw [htx, hty] at halone
    exact .some halone

/-- No index into a union tells a class from an equal one just if they declare the member alike. -/
theorem indistinct_iff_declareAlike {n : String} {members members' : List Member}
    (hx : (object n members).isProper = true) (hy : (object n members').isProper = true) :
    (∀ z : Ty, z.isProper = true → (memberType ((object n members).join z) name ==
      memberType ((object n members').join z) name) = true) ↔
      DeclareAlike (object n members) (object n members') name := by
  have hagree : (object n members).Agree (.object n members') := ⟨hx, hy, by simp [Ty.same]⟩
  constructor
  · exact declareAlike_of_indistinct hx hy
  · intro h z hz
    exact (agree_memberType_join hagree rfl rfl hz h).beq

/-- Of two equal classes in a union, the first decides. -/
theorem memberType_join_of_equal {n : String} {members : List Member} (members' : List Member)
    (hx : (object n members).isProper = true) (name : String) :
    memberType ((object n members).join (.object n members')) name =
      ((object n members).member? name).getD .unknown := by
  rw [join_of_beq (by simp [Ty.same]), memberType_of_not_union hx rfl]

/-- Members are read of the type of the base alone. Equal types have a member of equal types if
their equal alternatives declare it alike, and so do the unions of two types in either order. Of two
equal classes the first decides, so that the order shows if their declarations differ; and they may
be put for one another in all unions just if they declare the member alike. -/
theorem members_of_equal (a b : Ty) (name : String) (ha : a.isProper = true)
    (hb : b.isProper = true) :
    (∀ (index : Filed Node) (base : Expr), Index.base index.value = .ok (some base) →
      Index.memberName index.value = .ok (some name) →
      typeOfIndex index =
        .typeOf (index.replace base) >>= fun ty => .done (memberType ty name)) ∧
    ((∀ x ∈ a.alternatives, ∀ y ∈ b.alternatives, (x == y) = true → DeclareAlike x y name) →
      ((a == b) = true → (memberType a name == memberType b name) = true) ∧
      (memberType (a.join b) name == memberType (b.join a) name) = true) ∧
    ∀ (n : String) (members members' : List Member), a = .object n members →
      b = .object n members' →
      memberType (a.join b) name = (a.member? name).getD .unknown ∧
      ((memberType (a.join b) name == memberType (b.join a) name) = true ↔
        ((a.member? name).getD .unknown == (b.member? name).getD .unknown) = true) ∧
      ((∀ z : Ty, z.isProper = true →
        (memberType (a.join z) name == memberType (b.join z) name) = true) ↔
        DeclareAlike a b name) := by
  refine ⟨?_, ?_, ?_⟩
  · intro index base
    exact typeOfIndex_of_read
  · intro halike
    constructor
    · intro h
      exact ((agree_of_beq ha hb h).memberType halike).beq
    · refine ((agree_join_comm ha hb).memberType fun x hx y hy hxy => ?_).beq
      exact declareAlike_join ha hb halike hx hy hxy
  · rintro n members members' rfl rfl
    have hfirst := memberType_join_of_equal members' ha name
    have hfirst' := memberType_join_of_equal members hb name
    exact ⟨hfirst, by rw [hfirst, hfirst'], indistinct_iff_declareAlike ha hb⟩

/-- A class that declares two members, and the class that declares one of them. -/
theorem members_of_equal_partly :
    let c := object "C" [.mk "x" .number, .mk "y" .nil]
    let c' := object "C" [.mk "x" .number]
    let index : Filed Node :=
      ⟨0, ⟨⟨.known .indexExpr, [Build.name "a", Build.spelled .dot, .token .ident "x"], 0, 0⟩, []⟩⟩
    (∃ base, Index.base index.value = .ok (some base) ∧
      typeOfIndex index =
        .typeOf (index.replace base) >>= fun ty => .done (memberType ty "x")) ∧
    (memberType (union [c, .nil]) "x" == memberType (union [.nil, c']) "x") = true ∧
    (memberType (c.join c') "x" == memberType (c'.join c) "x") = true ∧
    memberType (c.join c') "y" = .nil ∧ memberType (c'.join c) "y" = .unknown ∧
    ¬∀ z : Ty, z.isProper = true →
      (memberType (c.join z) "y" == memberType (c'.join z) "y") = true := by
  intro c c' index
  have hc : c.isProper = true := rfl
  have hc' : c'.isProper = true := rfl
  have hx : DeclareAlike c c' "x" := .some rfl
  obtain ⟨hindex, hequal, -⟩ := members_of_equal (union [c, .nil]) (union [.nil, c']) "x"
    (by decide) (by decide)
  obtain ⟨-, hjoin, -⟩ := members_of_equal c c' "x" hc hc'
  obtain ⟨hfirst, -, hiff⟩ := (members_of_equal c c' "y" hc hc').2.2 "C" _ _ rfl rfl
  obtain ⟨hfirst', -, -⟩ := (members_of_equal c' c "y" hc' hc).2.2 "C" _ _ rfl rfl
  refine ⟨⟨_, rfl, hindex index _ rfl rfl⟩, (hequal ?_).1 (by decide), (hjoin ?_).2, hfirst,
    hfirst', ?_⟩
  · intro x hx' y hy hxy
    simp only [alternatives, List.mem_cons, List.not_mem_nil, or_false] at hx' hy
    rcases hx' with rfl | rfl <;> rcases hy with rfl | rfl
    · cases hxy
    · exact hx
    · exact .refl _ _
    · cases hxy
  · intro x hx' y hy _
    rw [List.mem_singleton.1 hx', List.mem_singleton.1 hy]
    exact hx
  · intro h
    cases hiff.1 h

end Ty

namespace Project

open Build

/-- Two globals of one class, of which only the first has the declared member, each before the other
one. -/
def eitherOrder : Project :=
  ((declaring (localStmt ["x"] [field (paren (orElse (name "a") (name "b"))) "x"])
    (field (paren (orElse (name "b") (name "a"))) "x")).withGlobal "a"
      (.object "C" [.mk "x" .number])).withGlobal "b" (.ofClass "C")

theorem made_eitherOrder : ∀ tree ∈ eitherOrder.files, Made tree :=
  made_declaring
    (.localStmt _ (made_one (.field (.paren (made_orElse (.name _) (.name _))) _)))
    (.field (.paren (made_orElse (.name _) (.name _))) _)

/-- Whether an expression reads the member `x` of an object of class `C` and has a type. -/
def readsMember (ty : Ty) (e : Filed Expr) : Bool :=
  match Index.base e.value.node, Index.memberName e.value.node with
  | .ok (some base), .ok (some name) =>
    name == "x" && (eitherOrder.codebase.typeAlone .full (e.replace base)).className? == some "C" &&
      eitherOrder.codebase.typeAlone .full e == ty
  | _, _ => false

theorem exists_of_readsMember {ty : Ty} {e : Filed Expr} (h : readsMember ty e = true) :
    ∃ base members, Index.base e.value.node = .ok (some base) ∧
      Index.memberName e.value.node = .ok (some "x") ∧
      eitherOrder.codebase.typeAlone .full (e.replace base) = .object "C" members ∧
      (eitherOrder.codebase.typeAlone .full e == ty) = true := by
  unfold readsMember at h
  split at h
  · next base name hbase hname =>
    simp only [Bool.and_eq_true, beq_iff_eq] at h
    obtain ⟨⟨rfl, hclass⟩, hty⟩ := h
    cases hobject : eitherOrder.codebase.typeAlone .full (e.replace base) with
    | object n members =>
      rw [hobject] at hclass
      cases hclass
      exact ⟨base, members, hbase, hname, hobject, hty⟩
    | _ =>
      rw [hobject] at hclass
      cases hclass
  · cases h

/-- The member is a number in the one order and unknown in the other, although the objects that it
is read of have equal types. -/
theorem eitherOrder_members :
    ∃ e e' base base', eitherOrder.codebase.expr? ⟨0, 0⟩ = .ok (some e) ∧
      eitherOrder.codebase.expr? ⟨0, 5⟩ = .ok (some e') ∧
      Index.base e.value.node = .ok (some base) ∧ Index.base e'.value.node = .ok (some base') ∧
      Index.memberName e.value.node = .ok (some "x") ∧
      Index.memberName e'.value.node = .ok (some "x") ∧
      (eitherOrder.codebase.typeAlone .full (e.replace base) ==
        eitherOrder.codebase.typeAlone .full (e'.replace base')) = true ∧
      (eitherOrder.codebase.inferFresh .full none e).1 = .value .number ∧
      (eitherOrder.codebase.inferFresh .full none e').1 = .value .unknown := by
  have htest : eitherOrder.codebase.testAt ⟨0, 0⟩ (readsMember .number) = true := by
    decide +kernel
  have htest' : eitherOrder.codebase.testAt ⟨0, 5⟩ (readsMember .unknown) = true := by
    decide +kernel
  have hclosed := closed made_eitherOrder
  obtain ⟨e, hexpr, he, htest⟩ := hclosed.exists_of_testAt htest
  obtain ⟨e', hexpr', he', htest'⟩ := hclosed.exists_of_testAt htest'
  obtain ⟨base, members, hbase, hname, hclass, hty⟩ := exists_of_readsMember htest
  obtain ⟨base', members', hbase', hname', hclass', hty'⟩ := exists_of_readsMember htest'
  rw [Ty.beq_eq] at hty hty'
  refine ⟨e, e', base, base', hexpr, hexpr', hbase, hbase', hname, hname', ?_, ?_, ?_⟩
  · rw [hclass, hclass', Ty.beq_eq]
    simp [Ty.same]
  · rw [hclosed.inferFresh_alone .full he]
    cases hfound : eitherOrder.codebase.typeAlone .full e <;> simp [hfound, Ty.same] at hty ⊢
  · rw [hclosed.inferFresh_alone .full he']
    cases hfound : eitherOrder.codebase.typeAlone .full e' <;> simp [hfound, Ty.same] at hty' ⊢

end Project

end LuaTypes
