import LuaTypes.Proofs.Ty.Congruence

/-!
# Types built by the constructors

Whoever declares a type puts it together from functions, classes and unions. Unions are made by
joining only, so whatever is built is proper: each union that occurs in it, at whatever depth, has
two alternatives at least, none of them a union and none equal to another. Equality of such types is
an equivalence, although a union is compared with another in one direction only.

* `Ty.Built`: what the constructors build; `Ty.Built.isProper`;
* `Ty.Occurs`: a type occurs in another one; `Ty.HasFlatUnions`: what is said of the unions that
  occur; `Ty.hasFlatUnions_iff`: these are the proper types;
* `Ty.beq_union_iff`: equal unions have equal members, in whatever order;
* `Ty.built_beq`: equality of built types.
-/

namespace LuaTypes

namespace Ty

/-- What the constructors of types build from types that they built before. A union is joined from
two types, or gathered from any number of them one after the other. -/
inductive Built : Ty → Prop
  | unknown : Built .unknown
  | nil : Built .nil
  | boolean : Built .boolean
  | number : Built .number
  | string : Built .string
  | function {signatures : List Signature}
    (hparams : ∀ s ∈ signatures, ∀ param ∈ s.params, Built param)
    (hret : ∀ s ∈ signatures, Built s.ret) : Built (.function signatures)
  | ofClass (name : String) : Built (ofClass name)
  | declare {name : String} {members : List Member} {ty : Ty}
    (hclass : Built (.object name members)) (field : String) (hty : Built ty) :
    Built (.object name (declare members field ty))
  | join {a b : Ty} (ha : Built a) (hb : Built b) : Built (a.join b)
  | joinAll {tys : List Ty} (h : ∀ ty ∈ tys, Built ty) : Built (joinAll tys)

/-- A function with one signature is one of the functions. -/
theorem Built.ofSignature {params : List Ty} {ret : Ty} (hparams : ∀ param ∈ params, Built param)
    (hret : Built ret) : Built (Ty.ofSignature params ret) := by
  apply Built.function
  · intro s hs
    rw [List.mem_singleton.1 hs]
    exact hparams
  · intro s hs
    rw [List.mem_singleton.1 hs]
    exact hret

theorem isProper_function {signatures : List Signature}
    (hparams : ∀ s ∈ signatures, ∀ param ∈ s.params, param.isProper = true)
    (hret : ∀ s ∈ signatures, s.ret.isProper = true) :
    (Ty.function signatures).isProper = true := by
  rw [Ty.isProper, properSignatures_iff]
  intro s hs
  have hparams := hparams s hs
  have hret := hret s hs
  cases s
  rw [Signature.isProper, Bool.and_eq_true, properTypes_iff]
  exact ⟨hparams, hret⟩

/-- Of the members declared before, some stay and none is new. -/
theorem isProper_declare {name : String} {members : List Member} {ty : Ty}
    (hclass : (Ty.object name members).isProper = true) (field : String)
    (hty : ty.isProper = true) : (Ty.object name (declare members field ty)).isProper = true := by
  rw [Ty.isProper, properMembers_iff] at *
  intro m hm
  rcases List.mem_append.1 hm with hm | hm
  · exact hclass m (List.mem_filter.1 hm).1
  · rw [List.mem_singleton.1 hm]
    exact hty

/-- Whatever is built is proper. -/
theorem Built.isProper {ty : Ty} (h : Built ty) : ty.isProper = true := by
  induction h with
  | unknown | nil | boolean | number | string | ofClass => rfl
  | function _ _ hparams hret => exact isProper_function hparams hret
  | declare _ field _ hclass hty => exact isProper_declare hclass field hty
  | join _ _ ha hb => exact isProper_join ha hb
  | joinAll _ ih => exact isProper_joinAll ih

/-! ### Unions that occur in a type -/

/-- A type occurs in another one: it is that type, or occurs in a parameter, in what is returned, in
a member of a class or in a member of a union. -/
inductive Occurs (part : Ty) : Ty → Prop
  | self : Occurs part part
  | param {signatures : List Signature} {s : Signature} {param : Ty} (hs : s ∈ signatures)
    (hparam : param ∈ s.params) (h : Occurs part param) : Occurs part (.function signatures)
  | ret {signatures : List Signature} {s : Signature} (hs : s ∈ signatures)
    (h : Occurs part s.ret) : Occurs part (.function signatures)
  | member {name : String} {members : List Member} {m : Member} (hm : m ∈ members)
    (h : Occurs part m.ty) : Occurs part (.object name members)
  | alternative {members : List Ty} {ty : Ty} (hty : ty ∈ members) (h : Occurs part ty) :
    Occurs part (.union members)

/-- At least two members, none of them a union and no two of them equal. -/
structure FlatUnion (members : List Ty) : Prop where
  two : 2 ≤ members.length
  flat : ∀ m ∈ members, m.isUnion = false
  distinct : members.Pairwise fun a b => (a == b) = false ∧ (b == a) = false

/-- Every union that occurs in a type is flat. -/
def HasFlatUnions (ty : Ty) : Prop := ∀ members, Occurs (.union members) ty → FlatUnion members

/-- What occurs in a proper type is proper. -/
theorem isProper_of_occurs {part ty : Ty} (h : Occurs part ty) (hty : ty.isProper = true) :
    part.isProper = true := by
  induction h with
  | self => exact hty
  | @param signatures s param hs hparam _ ih =>
    rw [Ty.isProper, properSignatures_iff] at hty
    have hproper := hty s hs
    cases s
    rw [Signature.isProper, Bool.and_eq_true, properTypes_iff] at hproper
    exact ih (hproper.1 param hparam)
  | @ret signatures s hs _ ih =>
    rw [Ty.isProper, properSignatures_iff] at hty
    have hproper := hty s hs
    cases s
    rw [Signature.isProper, Bool.and_eq_true] at hproper
    exact ih hproper.2
  | member hm _ ih =>
    rw [Ty.isProper, properMembers_iff] at hty
    exact ih (hty _ hm)
  | alternative hmem _ ih => exact ih ((isProper_union_iff.1 hty).2.2.2 _ hmem)

/-- The members of a proper union are compared in one order, but differ in both. -/
theorem flatUnion_of_isProper {members : List Ty} (h : (Ty.union members).isProper = true) :
    FlatUnion members := by
  obtain ⟨htwo, hflat, hdist, hproper⟩ := isProper_union_iff.1 h
  refine ⟨htwo, hflat, (isDistinct_iff.1 hdist).imp_of_mem ?_⟩
  intro a b ha hb hab
  rw [beq_eq, beq_eq]
  refine ⟨hab, Bool.eq_false_iff.2 fun hba => ?_⟩
  rw [(lawful b (hproper b hb)).symm a (hproper a ha) hba] at hab
  cases hab

namespace HasFlatUnions

theorem of_isProper {ty : Ty} (h : ty.isProper = true) : ty.HasFlatUnions := fun _ hoccurs =>
  flatUnion_of_isProper (isProper_of_occurs hoccurs h)

theorem param {signatures : List Signature} (h : (Ty.function signatures).HasFlatUnions)
    {s : Signature} (hs : s ∈ signatures) : ∀ param ∈ s.params, param.HasFlatUnions :=
  fun _ hparam members hoccurs => h members (.param hs hparam hoccurs)

theorem ret {signatures : List Signature} (h : (Ty.function signatures).HasFlatUnions)
    {s : Signature} (hs : s ∈ signatures) : s.ret.HasFlatUnions :=
  fun members hoccurs => h members (.ret hs hoccurs)

theorem member {name : String} {members : List Member} (h : (Ty.object name members).HasFlatUnions)
    {m : Member} (hm : m ∈ members) : m.ty.HasFlatUnions :=
  fun union hoccurs => h union (.member hm hoccurs)

theorem alternative {members : List Ty} (h : (Ty.union members).HasFlatUnions) {ty : Ty}
    (hty : ty ∈ members) : ty.HasFlatUnions :=
  fun union hoccurs => h union (.alternative hty hoccurs)

end HasFlatUnions

end Ty

mutual

theorem Ty.HasFlatUnions.isProper : ∀ {ty : Ty}, ty.HasFlatUnions → ty.isProper = true
  | .unknown, _ | .nil, _ | .boolean, _ | .number, _ | .string, _ => rfl
  | .function signatures, h => by
    rw [Ty.isProper]
    exact properSignatures_of_flat signatures fun s hs => ⟨h.param hs, h.ret hs⟩
  | .object _ members, h => by
    rw [Ty.isProper]
    exact properMembers_of_flat members fun m hm => h.member hm
  | .union members, h => by
    have hflat := h members .self
    have hproper := properTypes_of_flat members fun ty hty => h.alternative hty
    refine Ty.isProper_union_iff.2 ⟨hflat.two, hflat.flat, ?_, properTypes_iff.1 hproper⟩
    exact isDistinct_iff.2 (hflat.distinct.imp fun hab => by simpa using hab.1)

theorem properTypes_of_flat : ∀ tys : List Ty, (∀ ty ∈ tys, ty.HasFlatUnions) →
    properTypes tys = true
  | [], _ => rfl
  | ty :: tys, h => by
    obtain ⟨hty, htys⟩ := List.forall_mem_cons.1 h
    rw [properTypes, hty.isProper, properTypes_of_flat tys htys]
    rfl

theorem properSignatures_of_flat : ∀ signatures : List Signature,
    (∀ s ∈ signatures, (∀ param ∈ s.params, param.HasFlatUnions) ∧ s.ret.HasFlatUnions) →
    properSignatures signatures = true
  | [], _ => rfl
  | .mk params ret :: signatures, h => by
    obtain ⟨⟨hparams, hret⟩, hrest⟩ := List.forall_mem_cons.1 h
    have hproper : ret.isProper = true := Ty.HasFlatUnions.isProper hret
    rw [properSignatures, Signature.isProper, properTypes_of_flat params hparams, hproper,
      properSignatures_of_flat signatures hrest]
    rfl

theorem properMembers_of_flat : ∀ members : List Member, (∀ m ∈ members, m.ty.HasFlatUnions) →
    properMembers members = true
  | [], _ => rfl
  | .mk _ ty :: members, h => by
    obtain ⟨hty, hrest⟩ := List.forall_mem_cons.1 h
    have hproper : ty.isProper = true := Ty.HasFlatUnions.isProper hty
    rw [properMembers, Member.isProper, hproper, properMembers_of_flat members hrest]
    rfl

end

namespace Ty

/-- The types whose unions are flat are the proper ones. -/
theorem hasFlatUnions_iff {ty : Ty} : ty.HasFlatUnions ↔ ty.isProper = true :=
  ⟨HasFlatUnions.isProper, HasFlatUnions.of_isProper⟩

instance : DecidablePred HasFlatUnions := fun _ => decidable_of_iff _ hasFlatUnions_iff.symm

/-! ### Equality of built types -/

/-- Unions are equal when each member of one equals a member of the other. -/
theorem beq_union_iff {as bs : List Ty} (ha : (Ty.union as).isProper = true)
    (hb : (Ty.union bs).isProper = true) : (Ty.union as == .union bs) = true ↔
      (∀ a ∈ as, ∃ b ∈ bs, (a == b) = true) ∧ ∀ b ∈ bs, ∃ a ∈ as, (b == a) = true := by
  obtain ⟨-, -, hdistA, hproperA⟩ := isProper_union_iff.1 ha
  obtain ⟨-, -, hdistB, hproperB⟩ := isProper_union_iff.1 hb
  have hlawA : ∀ a ∈ as, a.Lawful := fun a hmem => lawful a (hproperA a hmem)
  have hlawB : ∀ b ∈ bs, b.Lawful := fun b hmem => lawful b (hproperB b hmem)
  simp only [beq_eq, Ty.same, Bool.and_eq_true, beq_iff_eq, allFound_iff]
  constructor
  · rintro ⟨hlen, hfound⟩
    refine ⟨hfound, fun b hmem => ?_⟩
    obtain ⟨a, hmem', hsame⟩ := covered_of_found hlawA hproperA hproperB hdistA hfound hlen b hmem
    exact ⟨a, hmem', (hlawA a hmem').symm b (hproperB b hmem) hsame⟩
  · rintro ⟨hfound, hback⟩
    have hle := length_le_of_found hlawA hproperA hproperB hdistA hfound
    have hge := length_le_of_found hlawB hproperB hproperA hdistB hback
    exact ⟨Nat.le_antisymm hle hge, hfound⟩

/-- The same members in another order make an equal union. -/
theorem beq_union_of_perm {as bs : List Ty} (h : as.Perm bs) :
    (Ty.union as == .union bs) = true := by
  have hfound := allFound_of_subset as bs fun a ha => h.subset ha
  simp [Ty.same, h.length_eq, hfound]

/-- Equality of built types is an equivalence. Unions are equal when each member of one equals a
member of the other, so that their order does not matter; classes are equal when their names are,
whatever members are declared. -/
theorem built_beq :
    (Equivalence fun a b : { ty : Ty // ty.Built } => (a.val == b.val) = true) ∧
    (∀ as bs : List Ty, (Ty.union as).Built → (Ty.union bs).Built →
      ((Ty.union as == .union bs) = true ↔
        (∀ a ∈ as, ∃ b ∈ bs, (a == b) = true) ∧ ∀ b ∈ bs, ∃ a ∈ as, (b == a) = true)) ∧
    (∀ as bs : List Ty, as.Perm bs → (Ty.union as == .union bs) = true) ∧
    ∀ name name' members members',
      (Ty.object name members == .object name' members') = (name == name') := by
  refine ⟨⟨?_, ?_, ?_⟩, ?_, ?_, ?_⟩
  · rintro ⟨a, -⟩
    rw [beq_eq, same_self]
  · rintro ⟨a, ha⟩ ⟨b, hb⟩ h
    rw [beq_eq] at *
    exact (lawful a ha.isProper).symm b hb.isProper h
  · rintro ⟨a, ha⟩ ⟨b, hb⟩ ⟨c, hc⟩ hab hbc
    rw [beq_eq] at *
    exact (lawful a ha.isProper).trans b c hb.isProper hc.isProper hab hbc
  · intro as bs ha hb
    exact beq_union_iff ha.isProper hb.isProper
  · intro as bs
    exact beq_union_of_perm
  · intro name name' members members'
    rw [beq_eq, Ty.same]

/-- Functions from a number or a string to a class: the unions are in different order, and a member
of the class is declared in one of them. -/
theorem built_beq_reordered :
    let a := ofSignature [union [number, string]] (object "C" [.mk "field" nil])
    let b := ofSignature [union [string, number]] (object "C" [])
    a.Built ∧ b.Built ∧ (a == b) = true ∧ (b == a) = true ∧
      ∀ ty ∈ [string, number], ∃ ty' ∈ [number, string], (ty == ty') = true := by
  intro a b
  have hnumber : (union [number, string]).Built := .join .number .string
  have hstring : (union [string, number]).Built := .join .string .number
  have ha : a.Built :=
    .ofSignature (List.forall_mem_singleton.2 hnumber) (.declare (.ofClass "C") "field" .nil)
  have hb : b.Built := .ofSignature (List.forall_mem_singleton.2 hstring) (.ofClass "C")
  have hab : (a == b) = true := by decide
  obtain ⟨hequiv, hunion, hperm, -⟩ := built_beq
  have hba : (b == a) = true := @Equivalence.symm _ _ hequiv ⟨a, ha⟩ ⟨b, hb⟩ hab
  have hswapped := hperm [number, string] [string, number] (.swap _ _ _)
  exact ⟨ha, hb, hab, hba, ((hunion _ _ hnumber hstring).1 hswapped).2⟩

end Ty

end LuaTypes
