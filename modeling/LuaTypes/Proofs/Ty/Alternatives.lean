import LuaTypes.Proofs.Ty.Agreement
import Mathlib.Data.List.Pairwise

/-!
# The alternatives of a union

Up to agreement a proper type is the set of its alternatives, and a union has the alternatives of
its parts.

* `Ty.Agree`: two proper types mean the same; `Ty.Agree.symm`, `Ty.Agree.trans`;
* `Ty.Has`: a type has an alternative that agrees with another type;
* `Ty.agree_of_has`: proper types that have the same alternatives agree;
* `Ty.has_join`, `Ty.has_joinAll`: the alternatives of unions;
* `Ty.alternatives_join`: which of several equal alternatives a union keeps.
-/

namespace LuaTypes

/-- Two proper types mean the same. -/
structure Ty.Agree (a b : Ty) : Prop where
  left : a.isProper = true
  right : b.isProper = true
  same : a.same b = true

namespace Ty.Agree

variable {a b c : Ty}

theorem refl (h : a.isProper = true) : a.Agree a := ⟨h, h, a.same_self⟩

theorem symm (h : a.Agree b) : b.Agree a :=
  ⟨h.right, h.left, (Ty.lawful a h.left).symm b h.right h.same⟩

theorem trans (h : a.Agree b) (h' : b.Agree c) : a.Agree c :=
  ⟨h.left, h'.right, (Ty.lawful a h.left).trans b c h.right h'.right h.same h'.same⟩

end Ty.Agree

/-- A type of the list agrees with another type. -/
def Listed (tys : List Ty) (alt : Ty) : Prop := ∃ ty ∈ tys, ty.Agree alt

/-- A type has an alternative that agrees with another type. -/
def Ty.Has (ty alt : Ty) : Prop := Listed ty.alternatives alt

/-- Types that may stand side by side in a union. -/
structure AreAlternatives (tys : List Ty) : Prop where
  proper : ∀ ty ∈ tys, ty.isProper = true
  flat : ∀ ty ∈ tys, ty.isUnion = false
  distinct : isDistinct tys = true

theorem Ty.alternatives_of_not_union {ty : Ty} (h : ty.isUnion = false) :
    ty.alternatives = [ty] := by
  cases ty <;> first | rfl | simp [Ty.isUnion] at h

theorem Ty.areAlternatives {ty : Ty} (h : ty.isProper = true) :
    AreAlternatives ty.alternatives := by
  cases hu : ty.isUnion with
  | true =>
    cases ty with
    | union members =>
      obtain ⟨-, hflat, hdist, hproper⟩ := Ty.isProper_union_iff.1 h
      exact ⟨hproper, hflat, hdist⟩
    | _ => simp [Ty.isUnion] at hu
  | false =>
    rw [Ty.alternatives_of_not_union hu]
    exact ⟨by simpa using h, by simpa using hu, by simp [isDistinct]⟩

theorem Ty.alternatives_ne_nil {ty : Ty} (h : ty.isProper = true) : ty.alternatives ≠ [] := by
  cases ty with
  | union members =>
    have := (Ty.isProper_union_iff.1 h).1
    intro hnil
    simp only [Ty.alternatives] at hnil
    simp [hnil] at this
  | _ => simp [Ty.alternatives]

theorem Ty.exists_has {ty : Ty} (h : ty.isProper = true) : ∃ alt, ty.Has alt := by
  obtain ⟨alt, hmem⟩ := List.exists_mem_of_ne_nil _ (Ty.alternatives_ne_nil h)
  exact ⟨alt, alt, hmem, .refl ((Ty.areAlternatives h).proper alt hmem)⟩

theorem Ty.has_iff_agree {ty alt : Ty} (hu : ty.isUnion = false) : ty.Has alt ↔ ty.Agree alt := by
  simp [Ty.Has, Listed, Ty.alternatives_of_not_union hu]

/-- Two proper types mean the same if they have as many alternatives, and each of the first is
found in the second. -/
theorem Ty.same_iff_alternatives {a b : Ty} (ha : a.isProper = true) (hb : b.isProper = true) :
    a.same b = true ↔ a.alternatives.length = b.alternatives.length ∧
      ∀ x ∈ a.alternatives, ∃ y ∈ b.alternatives, x.same y = true := by
  cases hua : a.isUnion <;> cases hub : b.isUnion
  · simp [Ty.alternatives_of_not_union hua, Ty.alternatives_of_not_union hub]
  · cases b with
    | union bs =>
      have hlen := (Ty.isProper_union_iff.1 hb).1
      rw [Ty.alternatives_of_not_union hua]
      constructor
      · intro h
        cases a <;> simp_all [Ty.same, Ty.isUnion]
      · intro h
        simp only [Ty.alternatives, List.length_singleton] at h
        omega
    | _ => simp [Ty.isUnion] at hub
  · cases a with
    | union as =>
      have hlen := (Ty.isProper_union_iff.1 ha).1
      rw [Ty.alternatives_of_not_union hub]
      constructor
      · intro h
        cases b <;> simp_all [Ty.same, Ty.isUnion]
      · intro h
        simp only [Ty.alternatives, List.length_singleton] at h
        omega
    | _ => simp [Ty.isUnion] at hua
  · cases a <;> cases b <;> simp_all [Ty.isUnion, Ty.same, Ty.alternatives, allFound_iff]

/-- Each alternative of a type that has no others than a second one is found in the second. -/
theorem found_of_has {a b : Ty} (ha : a.isProper = true) (h : ∀ alt, a.Has alt → b.Has alt) :
    ∀ x ∈ a.alternatives, ∃ y ∈ b.alternatives, x.same y = true := by
  intro x hx
  obtain ⟨y, hy, hagree⟩ := h x ⟨x, hx, .refl ((Ty.areAlternatives ha).proper x hx)⟩
  exact ⟨y, hy, hagree.symm.same⟩

theorem Ty.agree_of_has {a b : Ty} (ha : a.isProper = true) (hb : b.isProper = true)
    (h : ∀ alt, a.Has alt ↔ b.Has alt) : a.Agree b := by
  have hA := Ty.areAlternatives ha
  have hB := Ty.areAlternatives hb
  have hab := found_of_has ha fun alt => (h alt).1
  have hba := found_of_has hb fun alt => (h alt).2
  have hle := length_le_of_found (fun x hx => Ty.lawful x (hA.proper x hx)) hA.proper hB.proper
    hA.distinct hab
  have hge := length_le_of_found (fun x hx => Ty.lawful x (hB.proper x hx)) hB.proper hA.proper
    hB.distinct hba
  refine ⟨ha, hb, ?_⟩
  rw [Ty.same_iff_alternatives ha hb]
  exact ⟨Nat.le_antisymm hle hge, hab⟩

/-- Each alternative of a type agrees with one of a type that means the same. -/
theorem Ty.Agree.exists_alternative {a b x : Ty} (h : a.Agree b) (hx : x ∈ a.alternatives) :
    ∃ y ∈ b.alternatives, x.Agree y := by
  obtain ⟨-, hfound⟩ := (Ty.same_iff_alternatives h.left h.right).1 h.same
  obtain ⟨y, hy, hsame⟩ := hfound x hx
  have hproper := (Ty.areAlternatives h.left).proper x hx
  exact ⟨y, hy, hproper, (Ty.areAlternatives h.right).proper y hy, hsame⟩

theorem Ty.Agree.has {a b alt : Ty} (h : a.Agree b) (ha : a.Has alt) : b.Has alt := by
  obtain ⟨x, hx, hagree⟩ := ha
  obtain ⟨y, hy, hxy⟩ := h.exists_alternative hx
  exact ⟨y, hy, hxy.symm.trans hagree⟩

theorem Ty.Agree.has_iff {a b : Ty} (h : a.Agree b) (alt : Ty) : a.Has alt ↔ b.Has alt :=
  ⟨h.has, h.symm.has⟩

/-! ### Gathering alternatives -/

theorem isDistinct_append {as bs : List Ty} :
    isDistinct (as ++ bs) = true ↔ isDistinct as = true ∧ isDistinct bs = true ∧
      ∀ a ∈ as, ∀ b ∈ bs, a.same b = false := by
  simp only [isDistinct_iff, List.pairwise_append]

theorem areAlternatives_insertNew {kept : List Ty} {ty : Ty} (h : AreAlternatives kept)
    (hproper : ty.isProper = true) (hflat : ty.isUnion = false) :
    AreAlternatives (insertNew kept ty) := by
  unfold insertNew
  split
  · exact h
  · next hnew =>
    have hnone : ∀ k ∈ kept, k.same ty = false := by simpa using hnew
    refine ⟨?_, ?_, ?_⟩
    · intro k hk
      rcases List.mem_append.1 hk with hk | hk
      · exact h.proper k hk
      · rwa [List.mem_singleton.1 hk]
    · intro k hk
      rcases List.mem_append.1 hk with hk | hk
      · exact h.flat k hk
      · rwa [List.mem_singleton.1 hk]
    · exact isDistinct_append.2 ⟨h.distinct, by simp [isDistinct], by simpa using hnone⟩

theorem listed_insertNew {kept : List Ty} {ty alt : Ty} (h : AreAlternatives kept)
    (hproper : ty.isProper = true) :
    Listed (insertNew kept ty) alt ↔ Listed kept alt ∨ ty.Agree alt := by
  unfold insertNew
  split
  · next hold =>
    obtain ⟨k, hk, hsame⟩ := List.any_eq_true.1 hold
    have hkept : k.Agree ty := ⟨h.proper k hk, hproper, by simpa using hsame⟩
    constructor
    · exact Or.inl
    · rintro (hlisted | hagree)
      · exact hlisted
      · exact ⟨k, hk, hkept.trans hagree⟩
  · simp [Listed, or_and_right, exists_or]

theorem areAlternatives_foldl {kept tys : List Ty} (h : AreAlternatives kept)
    (hproper : ∀ ty ∈ tys, ty.isProper = true) (hflat : ∀ ty ∈ tys, ty.isUnion = false) :
    AreAlternatives (tys.foldl insertNew kept) := by
  induction tys generalizing kept with
  | nil => exact h
  | cons ty tys ih =>
    rw [List.forall_mem_cons] at hproper hflat
    exact ih (areAlternatives_insertNew h hproper.1 hflat.1) hproper.2 hflat.2

theorem listed_foldl {kept tys : List Ty} {alt : Ty} (h : AreAlternatives kept)
    (hproper : ∀ ty ∈ tys, ty.isProper = true) (hflat : ∀ ty ∈ tys, ty.isUnion = false) :
    Listed (tys.foldl insertNew kept) alt ↔ Listed kept alt ∨ Listed tys alt := by
  induction tys generalizing kept with
  | nil => simp [Listed]
  | cons ty tys ih =>
    rw [List.forall_mem_cons] at hproper hflat
    have hnext := areAlternatives_insertNew h hproper.1 hflat.1
    rw [List.foldl_cons, ih hnext hproper.2 hflat.2, listed_insertNew h hproper.1]
    simp [Listed, or_assoc]

theorem areAlternatives_gather {kept : List Ty} {ty : Ty} (h : AreAlternatives kept)
    (hproper : ty.isProper = true) : AreAlternatives (gather kept ty) :=
  areAlternatives_foldl h (Ty.areAlternatives hproper).proper (Ty.areAlternatives hproper).flat

theorem listed_gather {kept : List Ty} {ty alt : Ty} (h : AreAlternatives kept)
    (hproper : ty.isProper = true) :
    Listed (gather kept ty) alt ↔ Listed kept alt ∨ ty.Has alt :=
  listed_foldl h (Ty.areAlternatives hproper).proper (Ty.areAlternatives hproper).flat

theorem areAlternatives_nil : AreAlternatives [] := ⟨by simp, by simp, rfl⟩

theorem areAlternatives_gatherAll {kept tys : List Ty} (h : AreAlternatives kept)
    (hproper : ∀ ty ∈ tys, ty.isProper = true) : AreAlternatives (tys.foldl gather kept) := by
  induction tys generalizing kept with
  | nil => exact h
  | cons ty tys ih =>
    rw [List.forall_mem_cons] at hproper
    exact ih (areAlternatives_gather h hproper.1) hproper.2

theorem listed_gatherAll {kept tys : List Ty} {alt : Ty} (h : AreAlternatives kept)
    (hproper : ∀ ty ∈ tys, ty.isProper = true) :
    Listed (tys.foldl gather kept) alt ↔ Listed kept alt ∨ ∃ ty ∈ tys, ty.Has alt := by
  induction tys generalizing kept with
  | nil => simp
  | cons ty tys ih =>
    rw [List.forall_mem_cons] at hproper
    rw [List.foldl_cons, ih (areAlternatives_gather h hproper.1) hproper.2,
      listed_gather h hproper.1]
    simp [or_assoc]

/-! ### Unions -/

namespace Ty

theorem isProper_ofAlternatives {tys : List Ty} (h : AreAlternatives tys) :
    (ofAlternatives tys).isProper = true := by
  match tys, h with
  | [], _ => rfl
  | [ty], h => exact h.proper ty List.mem_cons_self
  | a :: b :: rest, h =>
    exact Ty.isProper_union_iff.2 ⟨by simp, h.flat, h.distinct, h.proper⟩

theorem has_ofAlternatives {tys : List Ty} {alt : Ty} (h : AreAlternatives tys) (hne : tys ≠ []) :
    (ofAlternatives tys).Has alt ↔ Listed tys alt := by
  match tys, h, hne with
  | [ty], h, _ =>
    show ty.Has alt ↔ _
    rw [Has, Ty.alternatives_of_not_union (h.flat ty List.mem_cons_self)]
  | _ :: _ :: _, _, _ => rfl

theorem isProper_joinAll {tys : List Ty} (h : ∀ ty ∈ tys, ty.isProper = true) :
    (joinAll tys).isProper = true :=
  isProper_ofAlternatives (areAlternatives_gatherAll areAlternatives_nil h)

theorem gatherAll_ne_nil {tys : List Ty} (h : ∀ ty ∈ tys, ty.isProper = true) (hne : tys ≠ []) :
    tys.foldl gather [] ≠ [] := by
  obtain ⟨ty, hmem⟩ := List.exists_mem_of_ne_nil _ hne
  obtain ⟨alt, halt⟩ := Ty.exists_has (h ty hmem)
  intro hnil
  have hlisted := (listed_gatherAll areAlternatives_nil h).2 (Or.inr ⟨ty, hmem, halt⟩)
  rw [hnil] at hlisted
  simp [Listed] at hlisted

/-- The union of a list has the alternatives of its types. -/
theorem has_joinAll {tys : List Ty} {alt : Ty} (h : ∀ ty ∈ tys, ty.isProper = true)
    (hne : tys ≠ []) : (joinAll tys).Has alt ↔ ∃ ty ∈ tys, ty.Has alt := by
  rw [joinAll, has_ofAlternatives (areAlternatives_gatherAll areAlternatives_nil h)
    (gatherAll_ne_nil h hne), listed_gatherAll areAlternatives_nil h]
  simp [Listed]

theorem join_eq {a b : Ty} : a.join b = if a.same b then a else joinAll [a, b] := by
  simp [join, joinAll]

theorem isProper_join {a b : Ty} (ha : a.isProper = true) (hb : b.isProper = true) :
    (a.join b).isProper = true := by
  rw [join_eq]
  split
  · exact ha
  · exact isProper_joinAll (by simp [ha, hb])

/-- The union of two types has the alternatives of both. -/
theorem has_join {a b alt : Ty} (ha : a.isProper = true) (hb : b.isProper = true) :
    (a.join b).Has alt ↔ a.Has alt ∨ b.Has alt := by
  rw [join_eq]
  split
  · next hsame => simp [Agree.has_iff ⟨ha, hb, hsame⟩ alt]
  · rw [has_joinAll (by simp [ha, hb]) (by simp)]
    simp

/-- Unions of lists whose types have the same alternatives agree. -/
theorem joinAll_agree {as bs : List Ty} (ha : ∀ ty ∈ as, ty.isProper = true)
    (hb : ∀ ty ∈ bs, ty.isProper = true)
    (h : ∀ alt, (∃ ty ∈ as, ty.Has alt) ↔ ∃ ty ∈ bs, ty.Has alt) :
    (joinAll as).Agree (joinAll bs) := by
  have hempty : as = [] ↔ bs = [] := by
    constructor
    · rintro rfl
      by_contra hne
      obtain ⟨ty, hmem⟩ := List.exists_mem_of_ne_nil _ hne
      obtain ⟨alt, halt⟩ := Ty.exists_has (hb ty hmem)
      simpa using (h alt).2 ⟨ty, hmem, halt⟩
    · rintro rfl
      by_contra hne
      obtain ⟨ty, hmem⟩ := List.exists_mem_of_ne_nil _ hne
      obtain ⟨alt, halt⟩ := Ty.exists_has (ha ty hmem)
      simpa using (h alt).1 ⟨ty, hmem, halt⟩
  by_cases hne : as = []
  · rw [hne, hempty.1 hne]
    exact .refl rfl
  · have hne' : bs ≠ [] := fun hbs => hne (hempty.2 hbs)
    apply agree_of_has (isProper_joinAll ha) (isProper_joinAll hb)
    intro alt
    rw [has_joinAll ha hne, has_joinAll hb hne', h alt]

theorem exists_has_of_forall₂ {as bs : List Ty} {alt : Ty} (h : List.Forall₂ Agree as bs)
    (ha : ∃ ty ∈ as, ty.Has alt) : ∃ ty ∈ bs, ty.Has alt := by
  obtain ⟨ty, hmem, halt⟩ := ha
  obtain ⟨ty', hmem', hagree⟩ := exists_of_forall₂ h hmem
  exact ⟨ty', hmem', hagree.has halt⟩

theorem proper_of_forall₂ {as bs : List Ty} (h : List.Forall₂ Agree as bs) :
    ∀ ty ∈ as, ty.isProper = true := by
  intro ty hmem
  obtain ⟨ty', -, hagree⟩ := exists_of_forall₂ h hmem
  exact hagree.left

theorem joinAll_congr {as bs : List Ty} (h : List.Forall₂ Agree as bs) :
    (joinAll as).Agree (joinAll bs) := by
  have hback : List.Forall₂ Agree bs as := forall₂_symm_of h fun _ _ _ _ hab => hab.symm
  apply joinAll_agree (proper_of_forall₂ h) (proper_of_forall₂ hback)
  intro alt
  constructor
  · exact exists_has_of_forall₂ h
  · exact exists_has_of_forall₂ hback

theorem join_congr {a a' b b' : Ty} (ha : a.Agree a') (hb : b.Agree b') :
    (a.join b).Agree (a'.join b') := by
  apply agree_of_has (isProper_join ha.left hb.left) (isProper_join ha.right hb.right)
  intro alt
  rw [has_join ha.left hb.left, has_join ha.right hb.right, ha.has_iff, hb.has_iff]

end Ty

/-! ### What a union keeps -/

/-- Of two alternatives that mean the same there is only one. -/
theorem AreAlternatives.eq_of_agree {tys : List Ty} (h : AreAlternatives tys) {x y : Ty}
    (hx : x ∈ tys) (hy : y ∈ tys) (hxy : x.Agree y) : x = y := by
  by_contra hne
  have hpairwise : tys.Pairwise fun a b => ¬a.Agree b :=
    (isDistinct_iff.1 h.distinct).imp fun hab hagree => by simp [hagree.same] at hab
  have : Std.Symm fun a b : Ty => ¬a.Agree b := ⟨fun _ _ hab hba => hab hba.symm⟩
  exact hpairwise.forall hx hy hne hxy

theorem mem_of_mem_foldl {kept tys : List Ty} {x : Ty} (h : x ∈ tys.foldl insertNew kept) :
    x ∈ kept ∨ x ∈ tys := by
  induction tys generalizing kept with
  | nil => exact Or.inl h
  | cons ty tys ih =>
    rcases ih h with h | h
    · unfold insertNew at h
      split at h
      · exact Or.inl h
      · rcases List.mem_append.1 h with h | h
        · exact Or.inl h
        · exact Or.inr (by simp [List.mem_singleton.1 h])
    · exact Or.inr (List.mem_cons_of_mem _ h)

theorem mem_foldl_of_mem {kept tys : List Ty} {x : Ty} (h : x ∈ kept) :
    x ∈ tys.foldl insertNew kept := by
  induction tys generalizing kept with
  | nil => exact h
  | cons ty tys ih =>
    apply ih
    unfold insertNew
    split
    · exact h
    · exact List.mem_append_left _ h

/-- Alternatives that are different are all kept, in order. -/
theorem foldl_insertNew_of_distinct {kept tys : List Ty} (h : isDistinct (kept ++ tys) = true) :
    tys.foldl insertNew kept = kept ++ tys := by
  induction tys generalizing kept with
  | nil => simp
  | cons ty tys ih =>
    obtain ⟨-, -, hdiff⟩ := isDistinct_append.1 h
    have hnew : ∀ k ∈ kept, k.same ty = false := fun k hk => hdiff k hk ty List.mem_cons_self
    rw [List.foldl_cons, insertNew, if_neg (by simpa using hnew), ih (by simpa using h)]
    simp

namespace Ty

variable {a b : Ty}

theorem gather_nil (h : a.isProper = true) : gather [] a = a.alternatives :=
  foldl_insertNew_of_distinct (areAlternatives h).distinct

theorem alternatives_ofAlternatives {tys : List Ty} (h : AreAlternatives tys) (hne : tys ≠ []) :
    (ofAlternatives tys).alternatives = tys := by
  match tys, h, hne with
  | [ty], h, _ => exact alternatives_of_not_union (h.flat ty List.mem_cons_self)
  | _ :: _ :: _, _, _ => rfl

/-- The union of two types that differ keeps the alternatives of the first, and of the second those
that are new. -/
theorem alternatives_join (ha : a.isProper = true) (hb : b.isProper = true)
    (hne : a.same b = false) :
    (a.join b).alternatives = b.alternatives.foldl insertNew a.alternatives := by
  have hkept : AreAlternatives (gather a.alternatives b) :=
    areAlternatives_gather (areAlternatives ha) hb
  obtain ⟨x, hx⟩ := List.exists_mem_of_ne_nil _ (alternatives_ne_nil ha)
  simp only [join, beq_eq, hne, Bool.false_eq_true, if_false, gather_nil ha]
  exact alternatives_ofAlternatives hkept (List.ne_nil_of_mem (mem_foldl_of_mem hx))

theorem mem_of_mem_join (ha : a.isProper = true) (hb : b.isProper = true) {x : Ty}
    (h : x ∈ (a.join b).alternatives) : x ∈ a.alternatives ∨ x ∈ b.alternatives := by
  cases hsame : a.same b with
  | true =>
    rw [join_eq, if_pos hsame] at h
    exact Or.inl h
  | false =>
    rw [alternatives_join ha hb hsame] at h
    exact mem_of_mem_foldl h

theorem mem_join_left (ha : a.isProper = true) (hb : b.isProper = true) {x : Ty}
    (h : x ∈ a.alternatives) : x ∈ (a.join b).alternatives := by
  cases hsame : a.same b with
  | true => rwa [join_eq, if_pos hsame]
  | false =>
    rw [alternatives_join ha hb hsame]
    exact mem_foldl_of_mem h

theorem joinAll_singleton (h : a.isProper = true) : joinAll [a] = a := by
  show ofAlternatives (gather [] a) = a
  rw [gather_nil h]
  cases a with
  | union members =>
    have htwo := (isProper_union_iff.1 h).1
    match members, htwo with
    | _ :: _ :: _, _ => rfl
  | _ => rfl

/-- The union of copies of one alternative. -/
theorem joinAll_of_forall_eq {tys : List Ty} {x : Ty} (hflat : x.isUnion = false) (hne : tys ≠ [])
    (h : ∀ ty ∈ tys, ty = x) : joinAll tys = x := by
  have hgather : ∀ kept, kept = [] ∨ kept = [x] → gather kept x = [x] := by
    rintro kept (rfl | rfl) <;> simp [gather, alternatives_of_not_union hflat, insertNew, same_self]
  have hfold : ∀ tys : List Ty, (∀ ty ∈ tys, ty = x) → tys.foldl gather [x] = [x] := by
    intro tys h
    induction tys with
    | nil => rfl
    | cons ty rest ih =>
      obtain ⟨rfl, hrest⟩ := List.forall_mem_cons.1 h
      rw [List.foldl_cons, hgather _ (.inr rfl), ih hrest]
  cases tys with
  | nil => exact (hne rfl).elim
  | cons ty rest =>
    obtain ⟨rfl, hrest⟩ := List.forall_mem_cons.1 h
    rw [joinAll, List.foldl_cons, hgather _ (.inl rfl), hfold rest hrest]
    rfl

end Ty

end LuaTypes
