import LuaTypes.Inference.Rules
import LuaTypes.Proofs.Ty.Alternatives

/-!
# Congruences of types

Types that agree may be put for one another in unions, in signatures and in what a call makes of
its callee. They may not where a member is read: a class is its name, whatever members are known of
it, so types that agree may have members of different types. Only types that are one and the same
may be put for one another there.

* `Ty.Congruence`: relations that unions, signatures and calls respect;
* `Ty.congruence_agree`, `Ty.congruence_identical`: agreement is one, and equality of proper types.
-/

namespace LuaTypes

namespace Ty

/-- A relation that unions, signatures and calls respect. -/
structure Congruence (rel : Ty → Ty → Prop) : Prop where
  refl : ∀ {a}, a.isProper = true → rel a a
  isUnknown : ∀ {a b}, rel a b → a.isUnknown = b.isUnknown
  join : ∀ {a a' b b'}, rel a a' → rel b b' → rel (a.join b) (a'.join b')
  joinAll : ∀ {as bs}, List.Forall₂ rel as bs → rel (joinAll as) (joinAll bs)
  ofSignature : ∀ {params a b}, properTypes params = true → rel a b →
    rel (ofSignature params a) (ofSignature params b)
  direct : ∀ {a b}, rel a b → rel (Call.direct a) (Call.direct b)

/-- Two types are one and the same proper type. -/
structure Identical (a b : Ty) : Prop where
  eq : a = b
  proper : a.isProper = true

theorem Congruence.withOwner {rel : Ty → Ty → Prop} (h : Congruence rel) {a a' b b' : Ty}
    (ha : rel a a') (hb : rel b b') : rel (Call.withOwner a b) (Call.withOwner a' b') := by
  unfold Call.withOwner
  rw [h.isUnknown ha, h.isUnknown hb]
  split
  · exact hb
  · split
    · exact ha
    · exact h.join ha hb

/-! ### What a callee contributes -/

theorem isProper_ofSignature {params : List Ty} {ret : Ty} (hparams : properTypes params = true)
    (hret : ret.isProper = true) : (ofSignature params ret).isProper = true := by
  simp [ofSignature, Ty.isProper, properSignatures, Signature.isProper, hparams, hret]

theorem isProper_of_mem_contribution {a ty : Ty} (ha : a.isProper = true)
    (h : ty ∈ Call.contribution a) : ty.isProper = true := by
  cases a with
  | function signatures =>
    obtain ⟨signature, hmem, rfl⟩ := List.mem_map.1 h
    have hproper := properSignatures_iff.1 (by simpa [Ty.isProper] using ha) signature hmem
    cases signature
    simp only [Signature.isProper, Bool.and_eq_true] at hproper
    exact hproper.2
  | object name members =>
    rw [List.mem_singleton.1 h]
    exact ha
  | _ => cases h

theorem mem_contributions {callee ty : Ty} : ty ∈ Call.contributions callee ↔
    (∃ x ∈ callee.alternatives, ty ∈ Call.contribution x) ∧ ty.isUnknown = false := by
  simp [Call.contributions]

theorem isProper_of_mem_contributions {callee ty : Ty} (hcallee : callee.isProper = true)
    (h : ty ∈ Call.contributions callee) : ty.isProper = true := by
  obtain ⟨⟨x, hx, hty⟩, -⟩ := mem_contributions.1 h
  exact isProper_of_mem_contribution ((areAlternatives hcallee).proper x hx) hty

theorem isProper_direct {callee : Ty} (h : callee.isProper = true) :
    (Call.direct callee).isProper = true :=
  isProper_joinAll fun _ hmem => isProper_of_mem_contributions h hmem

theorem Agree.isUnknown {a b : Ty} (h : a.Agree b) : a.isUnknown = b.isUnknown := by
  have hsame := h.same
  cases a <;> cases b <;> simp_all [Ty.same, Ty.isUnknown]

theorem exists_signature {ss ts : List Signature} (h : sameSignatures ss ts = true) {s : Signature}
    (hs : s ∈ ss) : ∃ t ∈ ts, s.same t = true := by
  rw [sameSignatures_iff] at h
  exact exists_of_forall₂ h hs

/-- Alternatives that agree contribute types that agree. -/
theorem Agree.exists_contribution {x y ty : Ty} (h : x.Agree y) (hty : ty ∈ Call.contribution x) :
    ∃ ty' ∈ Call.contribution y, ty.Agree ty' := by
  have hsame := h.same
  cases x with
  | function ss =>
    cases y with
    | function ts =>
      obtain ⟨s, hs, rfl⟩ := List.mem_map.1 hty
      obtain ⟨t, ht, hst⟩ := exists_signature (by simpa [Ty.same] using hsame) hs
      have hmem : t.ret ∈ Call.contribution (.function ts) := List.mem_map_of_mem ht
      refine ⟨t.ret, hmem, isProper_of_mem_contribution h.left hty,
        isProper_of_mem_contribution h.right hmem, ?_⟩
      cases s
      cases t
      simp only [Signature.same, Bool.and_eq_true] at hst
      exact hst.2
    | _ => simp [Ty.same] at hsame
  | object name members =>
    cases y with
    | object name' members' =>
      rw [List.mem_singleton.1 hty]
      exact ⟨_, List.mem_singleton_self _, h⟩
    | _ => simp [Ty.same] at hsame
  | _ => cases hty

theorem Agree.exists_contributions {a b ty : Ty} (h : a.Agree b) (hty : ty ∈ Call.contributions a) :
    ∃ ty' ∈ Call.contributions b, ty.Agree ty' := by
  obtain ⟨⟨x, hx, hmem⟩, hknown⟩ := mem_contributions.1 hty
  obtain ⟨y, hy, hxy⟩ := h.exists_alternative hx
  obtain ⟨ty', hmem', hagree⟩ := hxy.exists_contribution hmem
  exact ⟨ty', mem_contributions.2 ⟨⟨y, hy, hmem'⟩, hagree.isUnknown ▸ hknown⟩, hagree⟩

/-- Callees whose contributions agree, in whatever order and however often, give types that
agree. -/
theorem agree_direct_of_found {a b : Ty} (ha : a.isProper = true) (hb : b.isProper = true)
    (h : ∀ ty ∈ Call.contributions a, ∃ ty' ∈ Call.contributions b, ty.Agree ty')
    (hback : ∀ ty ∈ Call.contributions b, ∃ ty' ∈ Call.contributions a, ty.Agree ty') :
    (Call.direct a).Agree (Call.direct b) := by
  have hhalf : ∀ {tys tys' : List Ty}, (∀ ty ∈ tys, ∃ ty' ∈ tys', ty.Agree ty') → ∀ alt,
      (∃ ty ∈ tys, ty.Has alt) → ∃ ty ∈ tys', ty.Has alt := by
    rintro tys tys' h alt ⟨ty, hty, halt⟩
    obtain ⟨ty', hty', hagree⟩ := h ty hty
    exact ⟨ty', hty', hagree.has halt⟩
  apply joinAll_agree
  · intro ty hty
    exact isProper_of_mem_contributions ha hty
  · intro ty hty
    exact isProper_of_mem_contributions hb hty
  · intro alt
    exact ⟨hhalf h alt, hhalf hback alt⟩

theorem Agree.direct {a b : Ty} (h : a.Agree b) : (Call.direct a).Agree (Call.direct b) :=
  agree_direct_of_found h.left h.right (fun _ => h.exists_contributions)
    fun _ => h.symm.exists_contributions

/-! ### Agreement -/

theorem Agree.ofSignature {params : List Ty} {a b : Ty} (hparams : properTypes params = true)
    (h : a.Agree b) : (ofSignature params a).Agree (ofSignature params b) := by
  refine ⟨isProper_ofSignature hparams h.left, isProper_ofSignature hparams h.right, ?_⟩
  simp [Ty.ofSignature, Ty.same, sameSignatures, Signature.same, sameTypes_self, h.same]

theorem congruence_agree : Congruence Agree where
  refl := .refl
  isUnknown := Agree.isUnknown
  join := join_congr
  joinAll := joinAll_congr
  ofSignature := Agree.ofSignature
  direct := Agree.direct

/-! ### Equality -/

theorem forall₂_identical {as bs : List Ty} (h : List.Forall₂ Identical as bs) :
    as = bs ∧ ∀ ty ∈ as, ty.isProper = true := by
  induction h with
  | nil => simp
  | cons hab _ ih => simpa [hab.eq, hab.eq ▸ hab.proper] using ih

theorem congruence_identical : Congruence Identical where
  refl h := ⟨rfl, h⟩
  isUnknown h := by rw [h.eq]
  join := by
    rintro a _ b _ ⟨rfl, ha⟩ ⟨rfl, hb⟩
    exact ⟨rfl, isProper_join ha hb⟩
  joinAll h := by
    obtain ⟨rfl, hproper⟩ := forall₂_identical h
    exact ⟨rfl, isProper_joinAll hproper⟩
  ofSignature := by
    rintro params a _ hparams ⟨rfl, ha⟩
    exact ⟨rfl, isProper_ofSignature hparams ha⟩
  direct := by
    rintro a _ ⟨rfl, ha⟩
    exact ⟨rfl, isProper_direct ha⟩

theorem isProper_of_member? {name : String} {x ty : Ty} (hx : x.isProper = true)
    (h : x.member? name = some ty) : ty.isProper = true := by
  cases x with
  | object _ members =>
    obtain ⟨member, hfind, rfl⟩ := Option.map_eq_some_iff.1 h
    exact properMembers_iff.1 (by simpa [Ty.isProper] using hx) member
      (List.mem_of_find?_eq_some hfind)
  | _ => cases h

theorem Identical.memberType {a b : Ty} (h : a.Identical b) (name : String) :
    (memberType a name).Identical (memberType b name) := by
  constructor
  · rw [h.eq]
  · apply isProper_joinAll
    intro ty hty
    obtain ⟨x, hx, hmember⟩ := List.mem_filterMap.1 hty
    exact isProper_of_member? ((areAlternatives h.proper).proper x hx) hmember

end Ty

end LuaTypes
