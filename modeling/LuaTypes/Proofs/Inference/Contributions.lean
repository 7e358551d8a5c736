import LuaTypes.Proofs.Inference.Alike
import LuaTypes.Proofs.Inference.Composition
import LuaTypes.Proofs.Inference.FlatUnions
import LuaTypes.Proofs.Ty.Semilattice

/-!
# Calls and what their callees contribute

A call takes the type of its callee for the set of its contributions: the known returns of its
functions, and its classes. Where callees contribute the same, a call asks the same questions, and
comes to equal types: it falls back on a declared body for both or for neither, and joins the owner
of a constructor to both or to neither.

* `typeOfCallGiven`: the type of a call, given that of its callee;
* `Call.Interchangeable`: callee types that no call tells apart; `Call.Interchangeable.run`: no
  request does;
* `Call.interchangeable_of_found`: callees whose contributions agree are interchangeable;
* `Ty.IsPartlyUnknown`: a union that contains the unknown type, and where it comes from;
* `Call.by_contributions`: calls by the contributions of their callees.
-/

namespace LuaTypes

/-- The type of a call that loads no module, given the type of its callee. -/
def typeOfCallGiven (codebase : Codebase) (call : Filed Node) (callee : Expr) (ty : Ty) :
    Inquiry Ty := do
  let ty ← typeOfCallee codebase call ty
  match ← typeOfOwner codebase (call.replace callee) with
  | some owner => return Call.withOwner ty owner
  | none => return ty

theorem typeOfCall_given (codebase : Codebase) (reach : Reach) {call : Filed Node} {callee : Expr}
    (hcallee : Call.callee call.value = .ok (some callee))
    (hloader : codebase.conventions.isLoader (Text.trimmed callee.text) = false) :
    typeOfCall codebase reach call =
      .typeOf (call.replace callee) >>= typeOfCallGiven codebase call callee := by
  rw [typeOfCall, hcallee]
  show (if codebase.conventions.isLoader _ = true then _ else _) = _
  rw [hloader]
  rfl

/-- Given the one type or the other for its callee, a call asks the same questions, and from the
same answers it comes to types that agree. -/
def Call.Interchangeable (a b : Ty) : Prop :=
  ∀ (codebase : Codebase) (call : Filed Node) (callee : Expr),
    (typeOfCallGiven codebase call callee a).Alike Ty.Identical Ty.Agree
      (typeOfCallGiven codebase call callee b)

namespace Call

variable {a b : Ty}

/-! ### Callees that contribute the same -/

theorem typeOfCallee_alike_of_direct (codebase : Codebase) (call : Filed Node)
    (h : (direct a).Agree (direct b)) :
    (typeOfCallee codebase call a).Alike Ty.Identical Ty.Agree (typeOfCallee codebase call b) := by
  unfold typeOfCallee
  rw [h.isUnknown]
  split
  · refine .reading fun body _ => ?_
    cases body with
    | none => exact .done h
    | some body =>
      refine (Codebase.typeOfReturns_alike Ty.congruence_identical body).imp ?_
      rintro ty _ ⟨rfl, hty⟩
      exact .refl hty
  · exact .done h

theorem interchangeable_of_direct (h : (direct a).Agree (direct b)) : Interchangeable a b := by
  intro codebase call callee
  refine (typeOfCallee_alike_of_direct codebase call h).bind fun ty ty' hty => ?_
  refine (Codebase.typeOfOwner_alike _).bind fun owner owner' howner => ?_
  cases howner with
  | none => exact .done hty
  | @some owner _ howner =>
    obtain ⟨rfl, hproper⟩ := howner
    exact .done (Ty.congruence_agree.withOwner hty (.refl hproper))

theorem Interchangeable.trans {a b c : Ty} (h : Interchangeable a b) (h' : Interchangeable b c) :
    Interchangeable a c := fun codebase call callee =>
  (h codebase call callee).trans (h' codebase call callee) fun _ _ _ => Ty.Agree.trans

/-- Given interchangeable callee types in a sound state, requests go on to equal types and leave the
same trail and memo. -/
theorem Interchangeable.run (h : Interchangeable a b) {codebase : Codebase}
    (hknows : codebase.KnowsBuilt) (budget : Nat) (call : Filed Node) (callee : Expr)
    {state : State} (hstate : state.IsSound) :
    let find := codebase.inferWithin budget
    let one := (typeOfCallGiven codebase call callee a).run find state
    let other := (typeOfCallGiven codebase call callee b).run find state
    one.1.Alike (fun ty ty' => (ty == ty') = true) other.1 ∧ one.2 = other.2 := by
  have hfind : ∀ e (state : State), state.IsSound →
      (∀ ty, (codebase.inferWithin budget e state).1 = .value ty → Ty.Identical ty ty) ∧
        (codebase.inferWithin budget e state).2.IsSound := by
    intro e state hstate
    obtain ⟨hproper, hafter⟩ := hknows.inferWithin_sound budget e hstate
    exact ⟨fun ty hty => ⟨rfl, hproper ty hty⟩, hafter⟩
  obtain ⟨hout, hsame⟩ := (h codebase call callee).run hfind hstate
  exact ⟨hout.imp fun _ _ hagree => hagree.beq, hsame⟩

theorem interchangeable_of_found (ha : a.isProper = true) (hb : b.isProper = true)
    (h : ∀ ty ∈ contributions a, ∃ ty' ∈ contributions b, ty.Agree ty')
    (hback : ∀ ty ∈ contributions b, ∃ ty' ∈ contributions a, ty.Agree ty') :
    Interchangeable a b :=
  interchangeable_of_direct (Ty.agree_direct_of_found ha hb h hback)

/-! ### Callees put together from a list -/

/-- What a union contributes, one of its parts contributes. -/
theorem exists_part_of_contributes {tys : List Ty} (hproper : ∀ ty ∈ tys, ty.isProper = true)
    {ty : Ty} (h : ty ∈ contributions (Ty.joinAll tys)) :
    ∃ part ∈ tys, ∃ ty' ∈ contributions part, ty.Agree ty' := by
  obtain ⟨⟨x, hx, hty⟩, hknown⟩ := Ty.mem_contributions.1 h
  by_cases hne : tys = []
  · subst hne
    rw [List.mem_singleton.1 hx] at hty
    cases hty
  · have hself := (Ty.areAlternatives (Ty.isProper_joinAll hproper)).proper x hx
    obtain ⟨part, hpart, y, hy, hyx⟩ := (Ty.has_joinAll hproper hne).1 ⟨x, hx, .refl hself⟩
    obtain ⟨ty', hty', hagree⟩ := hyx.symm.exists_contribution hty
    exact ⟨part, hpart, ty', Ty.mem_contributions.2 ⟨⟨y, hy, hty'⟩, hagree.isUnknown ▸ hknown⟩,
      hagree⟩

/-- What a part of a union contributes, the union contributes. -/
theorem exists_contributes_of_part {tys : List Ty} (hproper : ∀ ty ∈ tys, ty.isProper = true)
    {part ty : Ty} (hpart : part ∈ tys) (h : ty ∈ contributions part) :
    ∃ ty' ∈ contributions (Ty.joinAll tys), ty.Agree ty' := by
  obtain ⟨⟨x, hx, hty⟩, hknown⟩ := Ty.mem_contributions.1 h
  have hself := (Ty.areAlternatives (hproper part hpart)).proper x hx
  obtain ⟨y, hy, hyx⟩ := (Ty.has_joinAll hproper (List.ne_nil_of_mem hpart)).2
    ⟨part, hpart, x, hx, .refl hself⟩
  obtain ⟨ty', hty', hagree⟩ := hyx.symm.exists_contribution hty
  exact ⟨ty', Ty.mem_contributions.2 ⟨⟨y, hy, hty'⟩, hagree.isUnknown ▸ hknown⟩, hagree⟩

/-- Unions are interchangeable if each of their parts contributes what parts of the other do. -/
theorem interchangeable_joinAll {tys tys' : List Ty} (hproper : ∀ ty ∈ tys, ty.isProper = true)
    (hproper' : ∀ ty ∈ tys', ty.isProper = true)
    (h : ∀ part ∈ tys, ∀ ty ∈ contributions part, ∃ part' ∈ tys', ty ∈ contributions part')
    (hback : ∀ part ∈ tys', ∀ ty ∈ contributions part, ∃ part' ∈ tys, ty ∈ contributions part') :
    Interchangeable (Ty.joinAll tys) (Ty.joinAll tys') := by
  have hhalf : ∀ {tys tys' : List Ty}, (∀ ty ∈ tys, ty.isProper = true) →
      (∀ ty ∈ tys', ty.isProper = true) →
      (∀ part ∈ tys, ∀ ty ∈ contributions part, ∃ part' ∈ tys', ty ∈ contributions part') →
      ∀ ty ∈ contributions (Ty.joinAll tys), ∃ ty' ∈ contributions (Ty.joinAll tys'),
        ty.Agree ty' := by
    intro tys tys' hproper hproper' h ty hty
    obtain ⟨part, hpart, ty₁, hty₁, hagree⟩ := exists_part_of_contributes hproper hty
    obtain ⟨part', hpart', hmem⟩ := h part hpart ty₁ hty₁
    obtain ⟨ty₂, hty₂, hagree'⟩ := exists_contributes_of_part hproper' hpart' hmem
    exact ⟨ty₂, hty₂, hagree.trans hagree'⟩
  exact interchangeable_of_found (Ty.isProper_joinAll hproper) (Ty.isProper_joinAll hproper')
    (hhalf hproper hproper' h) (hhalf hproper' hproper hback)

theorem mem_contributions_function {signatures : List Signature} {ty : Ty} :
    ty ∈ contributions (.function signatures) ↔
      (∃ s ∈ signatures, s.ret = ty) ∧ ty.isUnknown = false := by
  rw [Ty.mem_contributions]
  simp [Ty.alternatives, contribution]

/-- A function may exchange its signatures for others that return the same, apart from those that
return the bare unknown type. -/
theorem contributes_of_signatures {ss ts : List Signature}
    (h : ∀ s ∈ ss, s ∈ ts ∨ s.ret = .unknown) {ty : Ty}
    (hty : ty ∈ contributions (.function ss)) : ty ∈ contributions (.function ts) := by
  obtain ⟨⟨s, hs, rfl⟩, hknown⟩ := mem_contributions_function.1 hty
  rcases h s hs with hmem | hret
  · exact mem_contributions_function.2 ⟨⟨s, hmem, rfl⟩, hknown⟩
  · rw [hret] at hknown
    cases hknown

/-- Neither a function nor a class. -/
def IsSilent (ty : Ty) : Prop := ty.signatures? = none ∧ ty.className? = none

instance : DecidablePred IsSilent := fun _ => inferInstanceAs (Decidable (_ ∧ _))

theorem contributions_of_silent {ty : Ty} (h : ∀ x ∈ ty.alternatives, IsSilent x) :
    contributions ty = [] := by
  refine List.eq_nil_iff_forall_not_mem.2 fun c hc => ?_
  obtain ⟨⟨x, hx, hmem⟩, -⟩ := Ty.mem_contributions.1 hc
  obtain ⟨hsignatures, hclass⟩ := h x hx
  cases x with
  | function => cases hsignatures
  | object => cases hclass
  | _ => cases hmem

end Call

/-! ### Where an unknown alternative comes from -/

/-- A union that contains the unknown type. -/
def Ty.IsPartlyUnknown (ty : Ty) : Prop := unionContains? .unknown ty = some true

instance : DecidablePred Ty.IsPartlyUnknown := fun _ => inferInstanceAs (Decidable (_ = _))

namespace Ty

theorem isPartlyUnknown_iff {ty : Ty} (h : ty.isProper = true) :
    ty.IsPartlyUnknown ↔ ty.Has .unknown ∧ ty.isUnknown = false := by
  cases ty with
  | union members =>
    have hproper := (isProper_union_iff.1 h).2.2.2
    simp only [IsPartlyUnknown, unionContains?, Option.some.injEq, List.any_eq_true]
    constructor
    · rintro ⟨m, hm, hunknown⟩
      exact ⟨⟨m, hm, agree_of_beq (hproper m hm) rfl hunknown⟩, rfl⟩
    · rintro ⟨⟨m, hm, hunknown⟩, -⟩
      exact ⟨m, hm, hunknown.beq⟩
  | unknown => simp [IsPartlyUnknown, unionContains?, isUnknown]
  | _ =>
    simp only [IsPartlyUnknown, unionContains?, reduceCtorEq, false_iff]
    rintro ⟨⟨x, hx, hunknown⟩, -⟩
    rw [List.mem_singleton.1 hx] at hunknown
    have hsame := hunknown.same
    simp [Ty.same] at hsame

end Ty

namespace Call

theorem isPartlyUnknown_of_withOwner {ty owner : Ty} (hty : ty.isProper = true)
    (howner : owner.isProper = true) (h : (withOwner ty owner).IsPartlyUnknown) :
    ty.IsPartlyUnknown ∨ owner.IsPartlyUnknown := by
  unfold withOwner at h
  split at h
  · exact Or.inr h
  · next hknown =>
    split at h
    · exact Or.inl h
    · next hknown' =>
      rw [Bool.not_eq_true] at hknown hknown'
      obtain ⟨hhas, -⟩ := (Ty.isPartlyUnknown_iff (Ty.isProper_join hty howner)).1 h
      rcases (Ty.has_join hty howner).1 hhas with hhas | hhas
      · exact Or.inl ((Ty.isPartlyUnknown_iff hty).2 ⟨hhas, hknown⟩)
      · exact Or.inr ((Ty.isPartlyUnknown_iff howner).2 ⟨hhas, hknown'⟩)

/-- A return of a function among the alternatives is a union that contains the unknown type. -/
def ReturnsPartlyUnknown (callee : Ty) : Prop :=
  ∃ signatures, .function signatures ∈ callee.alternatives ∧
    ∃ s ∈ signatures, s.ret.IsPartlyUnknown

theorem returnsPartlyUnknown_of_direct {callee : Ty} (hcallee : callee.isProper = true)
    (h : (direct callee).IsPartlyUnknown) : ReturnsPartlyUnknown callee := by
  have hproper : ∀ ty ∈ contributions callee, ty.isProper = true :=
    fun _ hty => Ty.isProper_of_mem_contributions hcallee hty
  have hne : contributions callee ≠ [] := by
    intro hnil
    rw [direct, hnil] at h
    cases h
  obtain ⟨hhas, -⟩ := (Ty.isPartlyUnknown_iff (Ty.isProper_direct hcallee)).1 h
  obtain ⟨ty, hty, hunknown⟩ := (Ty.has_joinAll hproper hne).1 hhas
  obtain ⟨⟨x, hx, hmem⟩, hknown⟩ := Ty.mem_contributions.1 hty
  have hpartly := (Ty.isPartlyUnknown_iff (hproper ty hty)).2 ⟨hunknown, hknown⟩
  cases x with
  | function signatures =>
    obtain ⟨s, hs, rfl⟩ := List.mem_map.1 hmem
    exact ⟨signatures, hx, s, hs, hpartly⟩
  | object =>
    rw [List.mem_singleton.1 hmem] at hpartly
    cases hpartly
  | _ => cases hmem

end Call

namespace Inquiry.Alike

variable {α β : Type} {rel : Ty → Ty → Prop} {out : α → β → Prop} {inquiry : Inquiry α}
  {inquiry' : Inquiry β} {answer answer' : Filed Expr → Ty}

/-- From related answers, alike inquiries come to related results. -/
theorem answered (h : Alike rel out inquiry inquiry') (hanswer : ∀ e, rel (answer e) (answer' e))
    {value : α} (hvalue : inquiry.answered answer = .ok value) :
    ∃ value', inquiry'.answered answer' = .ok value' ∧ out value value' := by
  induction h with
  | done h =>
    cases hvalue
    exact ⟨_, rfl, h⟩
  | fail foreign => cases hvalue
  | ask e _ ih => exact ih _ _ (hanswer e) hvalue

/-- From proper answers, an inquiry that is like itself comes to a result that is like itself. -/
theorem answered_self {out : α → α → Prop} (h : Alike Ty.Identical out inquiry inquiry)
    (hanswer : ∀ e, (answer e).isProper = true) {value : α}
    (hvalue : inquiry.answered answer = .ok value) : out value value := by
  obtain ⟨value', hvalue', hout⟩ := h.answered (fun e => ⟨rfl, hanswer e⟩) hvalue
  cases hvalue.symm.trans hvalue'
  exact hout

end Inquiry.Alike

namespace Call

/-- Where the unknown alternative of a call's type comes from: a return of a function among the
alternatives of its callee, what its declared body yields if the callee's type says nothing, or the
type of the owner whose constructor is called. Each is a union that contains the unknown type. -/
inductive UnknownOrigin (codebase : Codebase) (call : Filed Node) (callee : Expr)
    (answer : Filed Expr → Ty) (ty : Ty) : Prop
  | signature {signatures : List Signature} {s : Signature}
    (hfunction : .function signatures ∈ ty.alternatives) (hs : s ∈ signatures)
    (h : s.ret.IsPartlyUnknown)
  | fallback {body : Filed Node} {yielded : Ty} (hdirect : (direct ty).isUnknown = true)
    (hbody : codebase.calledBody call = .ok (some body))
    (hyielded : (typeOfReturns body).answered answer = .ok yielded) (h : yielded.IsPartlyUnknown)
  | owner {owner : Ty}
    (howner : (typeOfOwner codebase (call.replace callee)).answered answer = .ok (some owner))
    (h : owner.IsPartlyUnknown)

section Origin

variable {codebase : Codebase} {call : Filed Node} {callee : Expr} {answer : Filed Expr → Ty}
  {ty result : Ty} (hanswer : ∀ e, (answer e).isProper = true) (hty : ty.isProper = true)

include hty

include hanswer in
theorem isProper_of_typeOfCallee
    (h : (typeOfCallee codebase call ty).answered answer = .ok result) :
    result.isProper = true :=
  ((typeOfCallee_alike_of_direct codebase call (.direct (.refl hty))).answered_self hanswer h).left

theorem unknownOrigin_of_typeOfCallee
    (h : (typeOfCallee codebase call ty).answered answer = .ok result)
    (hunknown : result.IsPartlyUnknown) : UnknownOrigin codebase call callee answer ty := by
  have horigin : (direct ty).IsPartlyUnknown → UnknownOrigin codebase call callee answer ty := by
    intro hdirect
    obtain ⟨signatures, hfunction, s, hs, hret⟩ := returnsPartlyUnknown_of_direct hty hdirect
    exact .signature hfunction hs hret
  unfold typeOfCallee at h
  split at h
  · next hdirect =>
    rw [Inquiry.answered_bind, Inquiry.answered_reading] at h
    obtain ⟨body, hbody, h⟩ := reading_bind_eq_ok.1 h
    cases body with
    | none =>
      cases h
      exact horigin hunknown
    | some body => exact .fallback hdirect hbody h hunknown
  · cases h
    exact horigin hunknown

include hanswer in
/-- The type of a call contains the unknown type beside another one only if a union that is met on
the way does. -/
theorem unknownOrigin_of_given
    (h : (typeOfCallGiven codebase call callee ty).answered answer = .ok result)
    (hunknown : result.IsPartlyUnknown) : UnknownOrigin codebase call callee answer ty := by
  rw [typeOfCallGiven, Inquiry.answered_bind] at h
  obtain ⟨found, hfound, h⟩ := reading_bind_eq_ok.1 h
  rw [Inquiry.answered_bind] at h
  obtain ⟨owner, howner, h⟩ := reading_bind_eq_ok.1 h
  cases owner with
  | none =>
    cases h
    exact unknownOrigin_of_typeOfCallee hty hfound hunknown
  | some owner =>
    cases h
    have hproper : owner.isProper = true := by
      have hlike := (Codebase.typeOfOwner_alike (call.replace callee)).answered_self hanswer howner
      cases hlike with
      | some hlike => exact hlike.proper
    rcases isPartlyUnknown_of_withOwner (isProper_of_typeOfCallee hanswer hty hfound) hproper
      hunknown with h | h
    · exact unknownOrigin_of_typeOfCallee hty hfound h
    · exact .owner howner h

end Origin

/-! ### Calls -/

/-- A call takes the type of its callee for a set of contributions. Given interchangeable callee
types, a request goes on to equal types and leaves the same trail and memo, whatever is under way
and has been found before. Equal callee types are interchangeable; so are unions of the same parts,
in whatever order and however often, and a type is the union of its alternatives. Among them a
function may exchange its signatures for others in whatever order and number, if only those differ
that return the bare unknown type, and parts whose alternatives are neither functions nor classes
may be left out. The type of the call contains the unknown type beside another one only if a return
of the callee, what its declared body yields or the type of the owner is a union that does. -/
theorem by_contributions :
    (∀ (codebase : Codebase) (reach : Reach) (call : Filed Node) (callee : Expr),
      Call.callee call.value = .ok (some callee) →
      codebase.conventions.isLoader (Text.trimmed callee.text) = false →
      typeOfCall codebase reach call =
        .typeOf (call.replace callee) >>= typeOfCallGiven codebase call callee) ∧
    (∀ a b : Ty, Interchangeable a b → ∀ codebase : Codebase, codebase.KnowsBuilt →
      ∀ (budget : Nat) (reach : Reach) (steps : List Scopes.Step) (memo : Option Memo)
        (call : Filed Node) (callee : Expr), Memo.HasFlatUnions memo →
      let given := fun ty => (typeOfCallGiven codebase call callee ty).run
        (codebase.inferWithin budget) ⟨((Scopes.fresh reach).run steps).trail, memo⟩
      (given a).1.Alike (fun ty ty' => (ty == ty') = true) (given b).1 ∧
        (given a).2 = (given b).2) ∧
    (∀ a b : Ty, a.isProper = true → b.isProper = true → (a == b) = true → Interchangeable a b) ∧
    (∀ a b c : Ty, Interchangeable a b → Interchangeable b c → Interchangeable a c) ∧
    (∀ a : Ty, a.isProper = true → (Ty.joinAll a.alternatives == a) = true) ∧
    (∀ tys tys' : List Ty, (∀ ty ∈ tys, ty.isProper = true) → tys ⊆ tys' → tys' ⊆ tys →
      Interchangeable (Ty.joinAll tys) (Ty.joinAll tys')) ∧
    (∀ (front back : List Ty) (ss ts : List Signature),
      (∀ ty ∈ front ++ .function ss :: back, ty.isProper = true) →
      (∀ ty ∈ front ++ .function ts :: back, ty.isProper = true) →
      (∀ s ∈ ss, s ∈ ts ∨ s.ret = .unknown) → (∀ t ∈ ts, t ∈ ss ∨ t.ret = .unknown) →
      Interchangeable (Ty.joinAll (front ++ .function ss :: back))
        (Ty.joinAll (front ++ .function ts :: back))) ∧
    (∀ front silent back : List Ty, (∀ ty ∈ front ++ silent ++ back, ty.isProper = true) →
      (∀ ty ∈ silent, ∀ x ∈ ty.alternatives, IsSilent x) →
      Interchangeable (Ty.joinAll (front ++ silent ++ back)) (Ty.joinAll (front ++ back))) ∧
    ∀ (codebase : Codebase) (call : Filed Node) (callee : Expr) (answer : Filed Expr → Ty)
      (ty result : Ty), (∀ e, (answer e).isProper = true) → ty.isProper = true →
      (typeOfCallGiven codebase call callee ty).answered answer = .ok result →
      result.IsPartlyUnknown → UnknownOrigin codebase call callee answer ty := by
  refine ⟨?_, ?_, ?_, ?_, ?_, ?_, ?_, ?_, ?_⟩
  · intro codebase reach call callee
    exact typeOfCall_given codebase reach
  · intro a b h codebase hknows budget reach steps memo call callee hmemo
    exact h.run hknows budget call callee ⟨Scopes.consistent_run reach steps, hmemo⟩
  · intro a b ha hb h
    exact interchangeable_of_direct (Ty.agree_of_beq ha hb h).direct
  · intro a b c
    exact Interchangeable.trans
  · intro a ha
    exact (Ty.agree_joinAll_alternatives ha).beq
  · intro tys tys' hproper hsub hback
    exact interchangeable_of_direct (Ty.agree_joinAll_of_subset hproper hsub hback).direct
  · intro front back ss ts hproper hproper' h hback
    have hhalf : ∀ {ss ts : List Signature}, (∀ s ∈ ss, s ∈ ts ∨ s.ret = .unknown) →
        ∀ part ∈ front ++ .function ss :: back, ∀ ty ∈ contributions part,
        ∃ part' ∈ front ++ .function ts :: back, ty ∈ contributions part' := by
      intro ss ts h part hpart ty hty
      simp only [List.mem_append, List.mem_cons] at hpart ⊢
      rcases hpart with hpart | rfl | hpart
      · exact ⟨part, .inl hpart, hty⟩
      · exact ⟨_, .inr (.inl rfl), contributes_of_signatures h hty⟩
      · exact ⟨part, .inr (.inr hpart), hty⟩
    exact interchangeable_joinAll hproper hproper' (hhalf h) (hhalf hback)
  · intro front silent back hproper hsilent
    have hsub : ∀ ty ∈ front ++ back, ty ∈ front ++ silent ++ back := by
      intro ty hty
      rcases List.mem_append.1 hty with hty | hty <;> simp [hty]
    refine interchangeable_joinAll hproper (fun ty hty => hproper ty (hsub ty hty)) ?_ ?_
    · intro part hpart ty hty
      simp only [List.mem_append] at hpart
      rcases hpart with (hpart | hpart) | hpart
      · exact ⟨part, by simp [hpart], hty⟩
      · rw [contributions_of_silent (hsilent part hpart)] at hty
        cases hty
      · exact ⟨part, by simp [hpart], hty⟩
    · intro part hpart ty hty
      exact ⟨part, hsub part hpart, hty⟩
  · intro codebase call callee answer ty result hanswer hty h
    exact unknownOrigin_of_given hanswer hty h

/-- A function with three overloads, nil or a class, and the class or the function with its
overloads in another order, without the one of which nothing is known and with another one twice. -/
theorem by_contributions_overloaded :
    let f := Ty.function [.mk [] .number, .mk [.nil] .unknown, .mk [] (.union [.string, .unknown])]
    let g := Ty.function
      [.mk [] (.union [.string, .unknown]), .mk [] .number, .mk [] .number]
    let a := Ty.joinAll [.nil, f, .ofClass "C"]
    let b := Ty.joinAll [.ofClass "C", g, .ofClass "C"]
    let codebase := (Project.ofTree (Build.call (Build.name "f") [])).codebase
    (a == b) = false ∧ Interchangeable a b ∧ (Ty.joinAll a.alternatives == a) = true ∧
      ∃ (call : Filed Node) (callee : Expr) (result : Ty),
        codebase.HasNode call ∧
        typeOfCall codebase .full call =
          .typeOf (call.replace callee) >>= typeOfCallGiven codebase call callee ∧
        (typeOfCallGiven codebase call callee a).answered (fun _ => .unknown) = .ok result ∧
        result.IsPartlyUnknown ∧ UnknownOrigin codebase call callee (fun _ => .unknown) a ∧
        ((typeOfCallGiven codebase call callee a).run codebase.infer (.fresh .full none)).1 =
          .value result ∧
        ((typeOfCallGiven codebase call callee a).run codebase.infer (.fresh .full none)).1.Alike
          (fun ty ty' => (ty == ty') = true)
          ((typeOfCallGiven codebase call callee b).run codebase.infer (.fresh .full none)).1 := by
  intro f g a b codebase
  obtain ⟨hcall, hrun, -, htrans, halternatives, hsubset, hsignatures, hsilent, horigin⟩ :=
    by_contributions
  have hproper : ∀ ty ∈ [.nil, f, .ofClass "C"], ty.isProper = true := by decide
  have hproper' : ∀ ty ∈ [f, .ofClass "C"], ty.isProper = true := by decide
  have hproper'' : ∀ ty ∈ [g, .ofClass "C"], ty.isProper = true := by decide
  have ha : a.isProper = true := Ty.isProper_joinAll hproper
  have hwithout : Interchangeable a (Ty.joinAll [f, .ofClass "C"]) :=
    hsilent [] [.nil] [f, .ofClass "C"] hproper (by decide)
  have hoverloads : Interchangeable (Ty.joinAll [f, .ofClass "C"]) (Ty.joinAll [g, .ofClass "C"]) :=
    hsignatures [] [.ofClass "C"] _ _ hproper' hproper'' (by simp) (by simp)
  have horder : Interchangeable (Ty.joinAll [g, .ofClass "C"]) b :=
    hsubset _ _ hproper'' (by simp) (by simp)
  have hab : Interchangeable a b := htrans _ _ _ (htrans _ _ _ hwithout hoverloads) horder
  refine ⟨by decide, hab, halternatives a ha, ?_⟩
  let call : Filed Node :=
    ⟨0, ⟨⟨.known .callExpr, [Build.name "f", Build.argList []], 0, 0⟩, []⟩⟩
  let callee : Expr :=
    ⟨.name, ⟨⟨.known .nameExpr, [.token .ident "f"], 0, 0⟩, [call.value.toSite]⟩, rfl⟩
  have hgiven : (typeOfCallGiven codebase call callee a).answered (fun _ => .unknown) =
      .ok (.union [.number, .string, .unknown, .ofClass "C"]) := by rfl
  have hpartly : (Ty.union [.number, .string, .unknown, .ofClass "C"]).IsPartlyUnknown := by decide
  have hknows : codebase.KnowsBuilt := Project.knowsBuilt nofun nofun
  have halike := hrun a b hab codebase hknows codebase.budget .full [] none call callee
    Memo.hasFlatUnions_none
  refine ⟨call, callee, _, ⟨_, rfl, List.mem_cons_self⟩, hcall codebase .full call callee rfl ?_,
    hgiven, hpartly, ?_, rfl, halike.1⟩
  · decide
  · exact horigin codebase call callee _ a _ (fun _ => rfl) ha hgiven hpartly

end Call

end LuaTypes
