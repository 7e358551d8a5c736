import LuaTypes.Proofs.Ty.Built

/-!
# Unions as a semilattice

Up to equality a union is the set of its alternatives. So it does not matter in which order types
are united, how often they occur or how they are grouped, nor which of several equal types is
taken; and a union with a second type adds nothing to that type if it has all the alternatives
already.

* `Ty.agree_join_comm`, `Ty.agree_join_assoc`, `Ty.join_self`: laws of the union of two types;
* `Ty.agree_joinAll_of_subset`, `Ty.agree_joinAll_group`: laws of the union of a list;
* `Ty.join_agree_right_iff`: when a union adds nothing;
* `Ty.join_semilattice`: these laws for equality of built types.
-/

namespace LuaTypes.Ty

variable {a b c : Ty}

theorem Agree.beq (h : a.Agree b) : (a == b) = true := by
  rw [beq_eq]
  exact h.same

theorem agree_of_beq (ha : a.isProper = true) (hb : b.isProper = true) (h : (a == b) = true) :
    a.Agree b :=
  ⟨ha, hb, by rwa [beq_eq] at h⟩

/-! ### The union of two types -/

theorem agree_join_comm (ha : a.isProper = true) (hb : b.isProper = true) :
    (a.join b).Agree (b.join a) := by
  apply agree_of_has (isProper_join ha hb) (isProper_join hb ha)
  intro alt
  rw [has_join ha hb, has_join hb ha, or_comm]

theorem agree_join_assoc (ha : a.isProper = true) (hb : b.isProper = true)
    (hc : c.isProper = true) : ((a.join b).join c).Agree (a.join (b.join c)) := by
  have hab := isProper_join ha hb
  have hbc := isProper_join hb hc
  apply agree_of_has (isProper_join hab hc) (isProper_join ha hbc)
  intro alt
  rw [has_join hab hc, has_join ha hb, has_join ha hbc, has_join hb hc, or_assoc]

/-- The union of a type with itself is that type, with the members of its classes. -/
theorem join_self (a : Ty) : a.join a = a := by
  rw [join_eq, if_pos a.same_self]

/-- A union adds nothing to a type that has all the alternatives already. -/
theorem join_agree_right_iff (ha : a.isProper = true) (hb : b.isProper = true) :
    (a.join b).Agree b ↔ ∀ x ∈ a.alternatives, ∃ y ∈ b.alternatives, (x == y) = true := by
  constructor
  · intro h x hx
    have hself : a.Has x := ⟨x, hx, .refl ((areAlternatives ha).proper x hx)⟩
    obtain ⟨y, hy, hagree⟩ := h.has ((has_join ha hb).2 (Or.inl hself))
    exact ⟨y, hy, hagree.symm.beq⟩
  · intro h
    apply agree_of_has (isProper_join ha hb) hb
    intro alt
    rw [has_join ha hb, or_iff_right_of_imp]
    rintro ⟨x, hx, hagree⟩
    obtain ⟨y, hy, hxy⟩ := h x hx
    have hsame : x.Agree y := agree_of_beq hagree.left ((areAlternatives hb).proper y hy) hxy
    exact ⟨y, hy, hsame.symm.trans hagree⟩

/-! ### The union of a list -/

/-- Neither the order nor the repetition of types in a list matters to their union. -/
theorem agree_joinAll_of_subset {tys tys' : List Ty} (hproper : ∀ ty ∈ tys, ty.isProper = true)
    (hsub : tys ⊆ tys') (hback : tys' ⊆ tys) : (joinAll tys).Agree (joinAll tys') := by
  apply joinAll_agree hproper
  · intro ty hty
    exact hproper ty (hback hty)
  · intro alt
    constructor
    · rintro ⟨ty, hty, halt⟩
      exact ⟨ty, hsub hty, halt⟩
    · rintro ⟨ty, hty, halt⟩
      exact ⟨ty, hback hty, halt⟩

/-- A type is the union of its alternatives. -/
theorem agree_joinAll_alternatives (ha : a.isProper = true) :
    (joinAll a.alternatives).Agree a := by
  have hA := areAlternatives ha
  apply agree_of_has (isProper_joinAll hA.proper) ha
  intro alt
  rw [has_joinAll hA.proper (alternatives_ne_nil ha)]
  exact exists_congr fun x => and_congr_right fun hx => has_iff_agree (hA.flat x hx)

/-- Some types of a list may be put together to a type that has just their alternatives. -/
theorem agree_joinAll_group {front run back : List Ty} {group : Ty}
    (hproper : ∀ ty ∈ front ++ run ++ back, ty.isProper = true) (hgroup : group.isProper = true)
    (h : ∀ alt, group.Has alt ↔ ∃ ty ∈ run, ty.Has alt) :
    (joinAll (front ++ group :: back)).Agree (joinAll (front ++ run ++ back)) := by
  apply joinAll_agree _ hproper
  · intro alt
    simp only [List.mem_append, List.mem_cons, or_and_right, exists_or, exists_eq_left, h,
      or_assoc]
  · intro ty hty
    rcases List.mem_append.1 hty with hty | hty
    · exact hproper ty (by simp [hty])
    · rcases List.mem_cons.1 hty with rfl | hty
      · exact hgroup
      · exact hproper ty (by simp [hty])

/-- Equal types may be put for one another in a list. -/
theorem agree_joinAll_of_beq {tys tys' : List Ty} (hproper : ∀ ty ∈ tys, ty.isProper = true)
    (hproper' : ∀ ty ∈ tys', ty.isProper = true)
    (h : List.Forall₂ (fun a b => (a == b) = true) tys tys') :
    (joinAll tys).Agree (joinAll tys') := by
  apply joinAll_congr
  induction h with
  | nil => exact .nil
  | cons hab _ ih =>
    rw [List.forall_mem_cons] at hproper hproper'
    exact .cons (agree_of_beq hproper.1 hproper'.1 hab) (ih hproper.2 hproper'.2)

/-! ### Built types -/

/-- Up to equality the union of built types is a semilattice. The union of two types is
commutative, associative and idempotent and respects equality. The union of a list depends neither
on the order nor on the repetition of its types; types that stand side by side in it may be united
beforehand, and equal types be put for one another. A union with a second type is that type if each
alternative of the first equals one of the second, the unknown type among them. -/
theorem join_semilattice :
    (∀ a b : Ty, a.Built → b.Built → (a.join b == b.join a) = true) ∧
    (∀ a b c : Ty, a.Built → b.Built → c.Built →
      ((a.join b).join c == a.join (b.join c)) = true) ∧
    (∀ a : Ty, a.join a = a) ∧
    (∀ a a' b b' : Ty, a.Built → a'.Built → b.Built → b'.Built →
      (a == a') = true → (b == b') = true → (a.join b == a'.join b') = true) ∧
    (∀ tys tys' : List Ty, (∀ ty ∈ tys, ty.Built) → tys ⊆ tys' → tys' ⊆ tys →
      (joinAll tys == joinAll tys') = true) ∧
    (∀ front run back : List Ty, (∀ ty ∈ front ++ run ++ back, ty.Built) → run ≠ [] →
      (joinAll (front ++ joinAll run :: back) == joinAll (front ++ run ++ back)) = true) ∧
    (∀ (front : List Ty) (a b : Ty) (back : List Ty), (∀ ty ∈ front ++ [a, b] ++ back, ty.Built) →
      (joinAll (front ++ a.join b :: back) == joinAll (front ++ [a, b] ++ back)) = true) ∧
    (∀ tys tys' : List Ty, (∀ ty ∈ tys, ty.Built) → (∀ ty ∈ tys', ty.Built) →
      List.Forall₂ (fun a b => (a == b) = true) tys tys' →
      (joinAll tys == joinAll tys') = true) ∧
    ∀ a b : Ty, a.Built → b.Built → ((a.join b == b) = true ↔
      ∀ x ∈ a.alternatives, ∃ y ∈ b.alternatives, (x == y) = true) := by
  refine ⟨?_, ?_, join_self, ?_, ?_, ?_, ?_, ?_, ?_⟩
  · intro a b ha hb
    exact (agree_join_comm ha.isProper hb.isProper).beq
  · intro a b c ha hb hc
    exact (agree_join_assoc ha.isProper hb.isProper hc.isProper).beq
  · intro a a' b b' ha ha' hb hb' haa hbb
    have haa : a.Agree a' := agree_of_beq ha.isProper ha'.isProper haa
    have hbb : b.Agree b' := agree_of_beq hb.isProper hb'.isProper hbb
    exact (join_congr haa hbb).beq
  · intro tys tys' hbuilt hsub hback
    exact (agree_joinAll_of_subset (fun ty hty => (hbuilt ty hty).isProper) hsub hback).beq
  · intro front run back hbuilt hne
    have hproper : ∀ ty ∈ front ++ run ++ back, ty.isProper = true :=
      fun ty hty => (hbuilt ty hty).isProper
    have hrun : ∀ ty ∈ run, ty.isProper = true := fun ty hty => hproper ty (by simp [hty])
    have hgroup : ∀ alt, (joinAll run).Has alt ↔ ∃ ty ∈ run, ty.Has alt :=
      fun alt => has_joinAll hrun hne
    exact (agree_joinAll_group hproper (isProper_joinAll hrun) hgroup).beq
  · intro front a b back hbuilt
    have hproper : ∀ ty ∈ front ++ [a, b] ++ back, ty.isProper = true :=
      fun ty hty => (hbuilt ty hty).isProper
    have ha : a.isProper = true := hproper a (by simp)
    have hb : b.isProper = true := hproper b (by simp)
    have hgroup : ∀ alt, (a.join b).Has alt ↔ ∃ ty ∈ [a, b], ty.Has alt := by
      intro alt
      simp [has_join ha hb]
    exact (agree_joinAll_group hproper (isProper_join ha hb) hgroup).beq
  · intro tys tys' hbuilt hbuilt' h
    exact (agree_joinAll_of_beq (fun ty hty => (hbuilt ty hty).isProper)
      (fun ty hty => (hbuilt' ty hty).isProper) h).beq
  · intro a b ha hb
    rw [← join_agree_right_iff ha.isProper hb.isProper]
    exact ⟨agree_of_beq (ha.join hb).isProper hb.isProper, Agree.beq⟩

/-- A number or a class with a declared member, and the class without it or a string. -/
theorem join_semilattice_of_class :
    let a := union [number, object "C" [.mk "field" nil]]
    let b := union [object "C" [], string]
    a.Built ∧ b.Built ∧ (a.join b == b.join a) = true ∧
      ((a.join b).join unknown == a.join (b.join unknown)) = true ∧
      (string.join b == b) = true ∧ (a.join b == b) = false ∧
      (joinAll [a, b, a] == joinAll [b, a]) = true ∧
      (joinAll [nil, joinAll [a, b], string] == joinAll [nil, a, b, string]) = true := by
  intro a b
  have ha : a.Built := .join .number (.declare (.ofClass "C") "field" .nil)
  have hb : b.Built := .join (.ofClass "C") .string
  have hthree : ∀ ty ∈ [a, b, a], ty.Built := by simp [ha, hb]
  have hfour : ∀ ty ∈ [nil] ++ [a, b] ++ [string], ty.Built := by
    simp [ha, hb, Built.nil, Built.string]
  have hstring : ∀ x ∈ string.alternatives, ∃ y ∈ b.alternatives, (x == y) = true := by decide
  obtain ⟨hcomm, hassoc, -, -, hsubset, hgroup, -, -, habsorb⟩ := join_semilattice
  refine ⟨ha, hb, hcomm a b ha hb, hassoc a b unknown ha hb .unknown, ?_, by decide, ?_, ?_⟩
  · exact (habsorb string b .string hb).2 hstring
  · exact hsubset _ _ hthree (by simp) (by simp)
  · exact hgroup [nil] [a, b] [string] hfour (by simp)

end LuaTypes.Ty
