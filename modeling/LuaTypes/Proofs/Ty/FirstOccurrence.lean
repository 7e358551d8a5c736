import LuaTypes.Proofs.Ty.Built

/-!
# First occurrences

A union keeps the first of those alternatives that mean the same, in the order in which they come,
with the members that are declared of it there. What comes later and means the same is dropped,
whether it is compared with what was kept or with all that came before. So types may be united one
after the other, in groups or all at once: the union is the same, and not only equal to it.

* `firstOccurrences`: the types of a list that equal none before them;
* `foldl_insertNew_eq`: inserting types one by one keeps the first occurrences;
* `foldl_insertNew_foldl`: types may be inserted into a list of their own first;
* `Ty.join_eq_joinAll`: the union of two types is that of a list of two;
* `Ty.joinAll_keeps_first`: these facts for the unions of built types.
-/

namespace LuaTypes

/-- The types of a list that equal none of those before them, when other types come before. -/
def firstOccurrences (before : List Ty) : List Ty → List Ty
  | [] => []
  | ty :: tys =>
    if before.any (· == ty) then firstOccurrences (before ++ [ty]) tys
    else ty :: firstOccurrences (before ++ [ty]) tys

theorem listed_append_singleton {tys : List Ty} {ty alt : Ty} :
    Listed (tys ++ [ty]) alt ↔ Listed tys alt ∨ ty.Agree alt := by
  simp [Listed, or_and_right, exists_or]

theorem any_beq_iff_listed {tys : List Ty} {ty : Ty} (htys : ∀ t ∈ tys, t.isProper = true)
    (hty : ty.isProper = true) : tys.any (· == ty) = true ↔ Listed tys ty := by
  rw [List.any_eq_true]
  refine exists_congr fun t => and_congr_right fun ht => ?_
  rw [Ty.beq_eq]
  exact ⟨fun hsame => ⟨htys t ht, hty, hsame⟩, fun hagree => hagree.same⟩

theorem insertNew_of_listed {kept : List Ty} {ty : Ty} (h : Listed kept ty) :
    insertNew kept ty = kept := by
  obtain ⟨k, hk, hagree⟩ := h
  rw [insertNew, if_pos]
  exact List.any_eq_true.2 ⟨k, hk, by rw [Ty.beq_eq]; exact hagree.same⟩

/-- Types that are there already change nothing. -/
theorem foldl_insertNew_of_listed {kept tys : List Ty} (h : ∀ ty ∈ tys, Listed kept ty) :
    tys.foldl insertNew kept = kept := by
  induction tys with
  | nil => rfl
  | cons ty tys ih =>
    obtain ⟨hty, htys⟩ := List.forall_mem_cons.1 h
    rw [List.foldl_cons, insertNew_of_listed hty, ih htys]

/-- What was kept of the types before agrees with whatever any of these agrees with. So to compare
a type with what was kept is to compare it with all that came before. -/
theorem foldl_insertNew_eq {before kept tys : List Ty} (hbefore : ∀ ty ∈ before, ty.isProper = true)
    (hkept : ∀ ty ∈ kept, ty.isProper = true) (htys : ∀ ty ∈ tys, ty.isProper = true)
    (hsame : ∀ alt, Listed kept alt ↔ Listed before alt) :
    tys.foldl insertNew kept = kept ++ firstOccurrences before tys := by
  induction tys generalizing before kept with
  | nil => simp [firstOccurrences]
  | cons ty tys ih =>
    obtain ⟨hty, htys⟩ := List.forall_mem_cons.1 htys
    have hproper : ∀ {as : List Ty}, (∀ a ∈ as, a.isProper = true) →
        ∀ a ∈ as ++ [ty], a.isProper = true := by
      intro as has
      exact List.forall_mem_append.2 ⟨has, List.forall_mem_singleton.2 hty⟩
    rw [List.foldl_cons, firstOccurrences]
    by_cases hlisted : Listed before ty
    · have hgrown : ∀ alt, Listed kept alt ↔ Listed (before ++ [ty]) alt := by
        intro alt
        rw [hsame, listed_append_singleton, or_iff_left_of_imp]
        intro hagree
        obtain ⟨b, hb, hbt⟩ := hlisted
        exact ⟨b, hb, hbt.trans hagree⟩
      rw [insertNew_of_listed ((hsame ty).2 hlisted), if_pos ((any_beq_iff_listed hbefore hty).2
        hlisted), ih (hproper hbefore) hkept htys hgrown]
    · have hgrown : ∀ alt, Listed (kept ++ [ty]) alt ↔ Listed (before ++ [ty]) alt := by
        intro alt
        rw [listed_append_singleton, listed_append_singleton, hsame]
      have hnew : ¬kept.any (· == ty) = true := by
        rwa [any_beq_iff_listed hkept hty, hsame]
      rw [insertNew, if_neg hnew, if_neg (by rwa [any_beq_iff_listed hbefore hty]),
        ih (hproper hbefore) (hproper hkept) htys hgrown, List.append_assoc, List.singleton_append]

/-- Types may be inserted into a list of their own first, and what is kept of them then inserted
where they belong. -/
theorem foldl_insertNew_foldl {kept own tys : List Ty} (hkept : AreAlternatives kept)
    (hown : AreAlternatives own) (hproper : ∀ ty ∈ tys, ty.isProper = true)
    (hflat : ∀ ty ∈ tys, ty.isUnion = false) :
    (tys.foldl insertNew own).foldl insertNew kept =
      tys.foldl insertNew (own.foldl insertNew kept) := by
  induction tys generalizing own with
  | nil => rfl
  | cons ty tys ih =>
    obtain ⟨hty, hproper⟩ := List.forall_mem_cons.1 hproper
    obtain ⟨htyFlat, hflat⟩ := List.forall_mem_cons.1 hflat
    have hone : (insertNew own ty).foldl insertNew kept =
        insertNew (own.foldl insertNew kept) ty := by
      by_cases hlisted : Listed own ty
      · have hall : Listed (own.foldl insertNew kept) ty :=
          (listed_foldl hkept hown.proper hown.flat).2 (.inr hlisted)
        rw [insertNew_of_listed hlisted, insertNew_of_listed hall]
      · have hnew : ¬own.any (· == ty) = true := by rwa [any_beq_iff_listed hown.proper hty]
        rw [insertNew, if_neg hnew, List.foldl_append]
        rfl
    rw [List.foldl_cons, List.foldl_cons, ih (areAlternatives_insertNew hown hty htyFlat) hproper
      hflat, hone]

/-- To gather types is to insert the alternatives of all of them. -/
theorem foldl_gather (kept tys : List Ty) :
    tys.foldl gather kept = (tys.flatMap Ty.alternatives).foldl insertNew kept := by
  rw [List.foldl_flatMap]
  rfl

namespace Ty

variable {a b : Ty}

/-! ### Alternatives of several types -/

theorem isProper_of_mem_flatMap {tys : List Ty} (h : ∀ ty ∈ tys, ty.isProper = true) :
    ∀ alt ∈ tys.flatMap alternatives, alt.isProper = true := by
  intro alt halt
  obtain ⟨ty, hty, hmem⟩ := List.mem_flatMap.1 halt
  exact (areAlternatives (h ty hty)).proper alt hmem

theorem not_isUnion_of_mem_flatMap {tys : List Ty} (h : ∀ ty ∈ tys, ty.isProper = true) :
    ∀ alt ∈ tys.flatMap alternatives, alt.isUnion = false := by
  intro alt halt
  obtain ⟨ty, hty, hmem⟩ := List.mem_flatMap.1 halt
  exact (areAlternatives (h ty hty)).flat alt hmem

theorem alternatives_joinAll {tys : List Ty} (h : ∀ ty ∈ tys, ty.isProper = true) (hne : tys ≠ []) :
    (joinAll tys).alternatives = tys.foldl gather [] :=
  alternatives_ofAlternatives (areAlternatives_gatherAll areAlternatives_nil h)
    (gatherAll_ne_nil h hne)

theorem ofAlternatives_alternatives (h : a.isProper = true) :
    ofAlternatives a.alternatives = a := by
  rw [← gather_nil h]
  exact joinAll_singleton h

theorem joinAll_pair (ha : a.isProper = true) :
    joinAll [a, b] = ofAlternatives (b.alternatives.foldl insertNew a.alternatives) := by
  show ofAlternatives (gather (gather [] a) b) = _
  rw [gather_nil ha, gather]

/-! ### One by one, in groups, all at once -/

/-- Also where two types mean the same and the first is taken as it is, nothing of the second would
have been kept. -/
theorem join_eq_joinAll (ha : a.isProper = true) (hb : b.isProper = true) :
    a.join b = joinAll [a, b] := by
  rw [join_eq]
  split
  · next hsame =>
    have hagree : b.Agree a := Agree.symm ⟨ha, hb, hsame⟩
    have hlisted : ∀ y ∈ b.alternatives, Listed a.alternatives y := by
      intro y hy
      obtain ⟨x, hx, hyx⟩ := hagree.exists_alternative hy
      exact ⟨x, hx, hyx.symm⟩
    rw [joinAll_pair ha, foldl_insertNew_of_listed hlisted, ofAlternatives_alternatives ha]
  · rfl

theorem joinAll_append {xs ys : List Ty} (hx : ∀ ty ∈ xs, ty.isProper = true)
    (hy : ∀ ty ∈ ys, ty.isProper = true) (hxne : xs ≠ []) (hyne : ys ≠ []) :
    joinAll (xs ++ ys) = (joinAll xs).join (joinAll ys) := by
  have hkept : AreAlternatives (xs.foldl gather []) :=
    areAlternatives_gatherAll areAlternatives_nil hx
  have hgroup : (ys.foldl gather []).foldl insertNew (xs.foldl gather []) =
      ys.foldl gather (xs.foldl gather []) := by
    rw [foldl_gather [] ys, foldl_insertNew_foldl hkept areAlternatives_nil
      (isProper_of_mem_flatMap hy) (not_isUnion_of_mem_flatMap hy), ← foldl_gather, List.foldl_nil]
  rw [join_eq_joinAll (isProper_joinAll hx) (isProper_joinAll hy),
    joinAll_pair (isProper_joinAll hx), alternatives_joinAll hx hxne, alternatives_joinAll hy hyne,
    hgroup, ← List.foldl_append, joinAll]

/-- The union of a list of built types has the alternatives of all of them, in order and each with
the members that are declared there, without those that equal an earlier one. The union of two is
that of a list of two, also when they are equal; and the union of one list put after another is the
union of their unions. All three are equations between types, not only equality up to the order of
alternatives and the members of classes. -/
theorem joinAll_keeps_first :
    (∀ tys : List Ty, (∀ ty ∈ tys, ty.Built) → tys ≠ [] →
      (joinAll tys).alternatives = firstOccurrences [] (tys.flatMap alternatives)) ∧
    (∀ a b : Ty, a.Built → b.Built → a.join b = joinAll [a, b]) ∧
    ∀ xs ys : List Ty, (∀ ty ∈ xs, ty.Built) → (∀ ty ∈ ys, ty.Built) → xs ≠ [] → ys ≠ [] →
      joinAll (xs ++ ys) = (joinAll xs).join (joinAll ys) := by
  refine ⟨?_, ?_, ?_⟩
  · intro tys hbuilt hne
    have hproper : ∀ ty ∈ tys, ty.isProper = true := fun ty hty => (hbuilt ty hty).isProper
    rw [alternatives_joinAll hproper hne, foldl_gather,
      foldl_insertNew_eq (by simp) (by simp) (isProper_of_mem_flatMap hproper) fun _ => Iff.rfl,
      List.nil_append]
  · intro a b ha hb
    exact join_eq_joinAll ha.isProper hb.isProper
  · intro xs ys hx hy
    exact joinAll_append (fun ty hty => (hx ty hty).isProper) fun ty hty => (hy ty hty).isProper

/-- A number or a class with a declared member, and the class without it or a number: the two are
equal, and the union of both is the first, declared member and all. -/
theorem joinAll_keeps_first_member :
    let a := union [number, object "C" [.mk "field" nil]]
    let b := union [object "C" [], number]
    a.Built ∧ b.Built ∧ (a == b) = true ∧ a.join b = joinAll [a, b] ∧
      (joinAll [b, a, string]).alternatives = [object "C" [], number, string] ∧
      joinAll [b, a, string] = (joinAll [b]).join (joinAll [a, string]) := by
  intro a b
  have ha : a.Built := .join .number (.declare (.ofClass "C") "field" .nil)
  have hb : b.Built := .join (.ofClass "C") .number
  have hthree : ∀ ty ∈ [b, a, string], ty.Built := by simp [ha, hb, Built.string]
  obtain ⟨hfirst, hpair, happend⟩ := joinAll_keeps_first
  refine ⟨ha, hb, by decide, hpair a b ha hb, hfirst _ hthree (by simp), ?_⟩
  exact happend [b] [a, string] (by simp [hb]) (by simp [ha, Built.string]) (by simp) (by simp)

end Ty

end LuaTypes
