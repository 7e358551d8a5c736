import LuaTypes.Ty.Join
import Mathlib.Data.List.Forall2
import Mathlib.Data.List.Perm.Subperm

/-!
# Agreement of types

Whoever makes a union makes it flat, with two alternatives at least and none of them twice, and so
are the unions inside it (`Ty.isProper`). Among such types, meaning the same is an equivalence,
although a union is compared with another in one direction only: as many alternatives, none twice,
leave none of the other's out.

* `Ty.isProper`, with an equation for each kind of type;
* `Ty.Lawful`: sameness is reflexive, symmetric and transitive from a type on;
* `exists_matching`, `exists_perm_of_found`: lists that are compared in one direction, matched;
* `Ty.lawful`: proper types are lawful.
-/

namespace LuaTypes

/-! ### Proper types -/

/-- Whether a type is a union. -/
def Ty.isUnion : Ty → Bool
  | .union _ => true
  | _ => false

/-- Whether no type of a list means the same as a later one. -/
def isDistinct : List Ty → Bool
  | [] => true
  | a :: as => as.all (fun b => !a.same b) && isDistinct as

mutual

/-- Whether every union that occurs in a type is flat, has two members at least and none twice. -/
def Ty.isProper : Ty → Bool
  | .function signatures => properSignatures signatures
  | .object _ members => properMembers members
  | .union members =>
    decide (2 ≤ members.length) && members.all (!·.isUnion) && isDistinct members &&
      properTypes members
  | _ => true
termination_by structural ty => ty

/-- Whether the types of a signature are proper. -/
def Signature.isProper : Signature → Bool
  | .mk params ret => properTypes params && ret.isProper
termination_by structural signature => signature

/-- Whether the type of a member is proper. -/
def Member.isProper : Member → Bool
  | .mk _ ty => ty.isProper
termination_by structural member => member

/-- Whether all types of a list are proper. -/
def properTypes : List Ty → Bool
  | [] => true
  | ty :: tys => ty.isProper && properTypes tys
termination_by structural tys => tys

/-- Whether all signatures of a list are proper. -/
def properSignatures : List Signature → Bool
  | [] => true
  | signature :: signatures => signature.isProper && properSignatures signatures
termination_by structural signatures => signatures

/-- Whether all members of a list are proper. -/
def properMembers : List Member → Bool
  | [] => true
  | member :: members => member.isProper && properMembers members
termination_by structural members => members

end

theorem properTypes_iff {tys : List Ty} :
    properTypes tys = true ↔ ∀ ty ∈ tys, ty.isProper = true := by
  induction tys with
  | nil => simp [properTypes]
  | cons ty tys ih => simp [properTypes, ih]

theorem properSignatures_iff {signatures : List Signature} :
    properSignatures signatures = true ↔ ∀ s ∈ signatures, s.isProper = true := by
  induction signatures with
  | nil => simp [properSignatures]
  | cons s signatures ih => simp [properSignatures, ih]

theorem properMembers_iff {members : List Member} :
    properMembers members = true ↔ ∀ m ∈ members, m.ty.isProper = true := by
  induction members with
  | nil => simp [properMembers]
  | cons m members ih => cases m; simp [properMembers, Member.isProper, ih]

theorem isDistinct_iff {tys : List Ty} :
    isDistinct tys = true ↔ tys.Pairwise fun a b => a.same b = false := by
  induction tys with
  | nil => simp [isDistinct]
  | cons a tys ih => simp [isDistinct, ih]

theorem Ty.isProper_union_iff {members : List Ty} :
    (Ty.union members).isProper = true ↔ 2 ≤ members.length ∧ (∀ m ∈ members, m.isUnion = false) ∧
      isDistinct members = true ∧ ∀ m ∈ members, m.isProper = true := by
  simp [Ty.isProper, properTypes_iff, and_assoc]

/-! ### Lists side by side -/

section Forall₂

variable {α : Type} {same : α → α → Prop} {as bs cs : List α}

theorem exists_of_forall₂ (h : List.Forall₂ same as bs) {a : α} (ha : a ∈ as) :
    ∃ b ∈ bs, same a b := by
  induction h with
  | nil => cases ha
  | cons hab _ ih =>
    rcases List.mem_cons.1 ha with rfl | ha
    · exact ⟨_, List.mem_cons_self, hab⟩
    · obtain ⟨b, hb, hsame⟩ := ih ha
      exact ⟨b, List.mem_cons_of_mem _ hb, hsame⟩

theorem forall₂_imp_of {other : α → α → Prop} (h : List.Forall₂ same as bs)
    (himp : ∀ a ∈ as, ∀ b ∈ bs, same a b → other a b) : List.Forall₂ other as bs := by
  induction h with
  | nil => exact .nil
  | cons hab _ ih =>
    refine .cons (himp _ List.mem_cons_self _ List.mem_cons_self hab) (ih ?_)
    intro a ha b hb
    exact himp a (List.mem_cons_of_mem _ ha) b (List.mem_cons_of_mem _ hb)

theorem forall₂_iff_of {other : α → α → Prop}
    (h : ∀ a ∈ as, ∀ b ∈ bs, same a b ↔ other a b) :
    List.Forall₂ same as bs ↔ List.Forall₂ other as bs :=
  ⟨fun hall => forall₂_imp_of hall fun a ha b hb => (h a ha b hb).1,
    fun hall => forall₂_imp_of hall fun a ha b hb => (h a ha b hb).2⟩

/-- What may be turned round for each member of two lists may be turned round for the lists. -/
theorem forall₂_symm_of (h : List.Forall₂ same as bs)
    (hsymm : ∀ a ∈ as, ∀ b ∈ bs, same a b → same b a) : List.Forall₂ same bs as :=
  (forall₂_imp_of h hsymm).flip

theorem forall₂_trans_of (h : List.Forall₂ same as bs) (h' : List.Forall₂ same bs cs)
    (htrans : ∀ a ∈ as, ∀ b ∈ bs, ∀ c ∈ cs, same a b → same b c → same a c) :
    List.Forall₂ same as cs := by
  induction h generalizing cs with
  | nil => exact h'
  | cons hab _ ih =>
    cases h' with
    | cons hbc hrest =>
      have hac := htrans _ List.mem_cons_self _ List.mem_cons_self _ List.mem_cons_self hab hbc
      refine .cons hac (ih hrest ?_)
      intro a ha b hb c hc
      exact htrans a (List.mem_cons_of_mem _ ha) b (List.mem_cons_of_mem _ hb) c
        (List.mem_cons_of_mem _ hc)

end Forall₂

/-! ### Meaning the same is an equivalence -/

theorem allFound_iff {as bs : List Ty} :
    allFound as bs = true ↔ ∀ a ∈ as, ∃ b ∈ bs, a.same b = true := by
  induction as with
  | nil => simp [allFound]
  | cons a as ih => simp [allFound, ih]

/-- A type from which meaning the same can be followed back and on. -/
structure Ty.Lawful (a : Ty) : Prop where
  symm : ∀ b, b.isProper = true → a.same b = true → b.same a = true
  trans : ∀ b c, b.isProper = true → c.isProper = true → a.same b = true → b.same c = true →
    a.same c = true

/-- A signature from which meaning the same can be followed back and on. -/
structure Signature.Lawful (s : Signature) : Prop where
  symm : ∀ t, t.isProper = true → s.same t = true → t.same s = true
  trans : ∀ t u, t.isProper = true → u.isProper = true → s.same t = true → t.same u = true →
    s.same u = true

/-- Where each type of a list without repetition means the same as one of another list, no two of
them have to share one: each is matched with one of its own. -/
theorem exists_matching {as bs : List Ty} (hlaw : ∀ a ∈ as, a.Lawful)
    (ha : ∀ a ∈ as, a.isProper = true) (hb : ∀ b ∈ bs, b.isProper = true)
    (hdist : isDistinct as = true) (hfound : ∀ a ∈ as, ∃ b ∈ bs, a.same b = true) :
    ∃ matched, List.Forall₂ (fun a b => a.same b = true) as matched ∧ matched.Subperm bs := by
  induction as generalizing bs with
  | nil => exact ⟨[], .nil, List.nil_subperm⟩
  | cons a as ih =>
    obtain ⟨hlawA, hlaw⟩ := List.forall_mem_cons.1 hlaw
    obtain ⟨haA, ha⟩ := List.forall_mem_cons.1 ha
    obtain ⟨⟨b, hmem, hab⟩, hfound⟩ := List.forall_mem_cons.1 hfound
    simp only [isDistinct, Bool.and_eq_true, List.all_eq_true, Bool.not_eq_true'] at hdist
    obtain ⟨front, back, rfl⟩ := List.append_of_mem hmem
    have hperm : (front ++ b :: back).Perm (b :: (front ++ back)) := List.perm_middle
    have hrest : ∀ c ∈ front ++ back, c.isProper = true := fun c hc =>
      hb c (hperm.symm.subset (List.mem_cons_of_mem b hc))
    -- a later type that means the same as `b` would mean the same as `a`
    have hfoundRest : ∀ a' ∈ as, ∃ c ∈ front ++ back, a'.same c = true := by
      intro a' ha'
      obtain ⟨c, hc, hsame⟩ := hfound a' ha'
      rcases List.mem_cons.1 (hperm.subset hc) with rfl | hc
      · have hback := (hlaw a' ha').symm c (hb c hmem) hsame
        have hclash := hlawA.trans c a' (hb c hmem) (ha a' ha') hab hback
        rw [hdist.1 a' ha'] at hclash
        cases hclash
      · exact ⟨c, hc, hsame⟩
    obtain ⟨matched, hmatched, hsub⟩ := ih hlaw ha hrest hdist.2 hfoundRest
    exact ⟨b :: matched, .cons hab hmatched,
      ((List.subperm_cons b).2 hsub).trans hperm.symm.subperm⟩

theorem length_le_of_found {as bs : List Ty} (hlaw : ∀ a ∈ as, a.Lawful)
    (ha : ∀ a ∈ as, a.isProper = true) (hb : ∀ b ∈ bs, b.isProper = true)
    (hdist : isDistinct as = true) (hfound : ∀ a ∈ as, ∃ b ∈ bs, a.same b = true) :
    as.length ≤ bs.length := by
  obtain ⟨matched, hmatched, hsub⟩ := exists_matching hlaw ha hb hdist hfound
  rw [hmatched.length_eq]
  exact hsub.length_le

/-- Where the other list is no longer, all of it is matched. -/
theorem exists_perm_of_found {as bs : List Ty} (hlaw : ∀ a ∈ as, a.Lawful)
    (ha : ∀ a ∈ as, a.isProper = true) (hb : ∀ b ∈ bs, b.isProper = true)
    (hdist : isDistinct as = true) (hfound : ∀ a ∈ as, ∃ b ∈ bs, a.same b = true)
    (hlen : as.length = bs.length) :
    ∃ matched, List.Forall₂ (fun a b => a.same b = true) as matched ∧ matched.Perm bs := by
  obtain ⟨matched, hmatched, hsub⟩ := exists_matching hlaw ha hb hdist hfound
  have hle := Nat.le_of_eq (hlen.symm.trans hmatched.length_eq)
  exact ⟨matched, hmatched, hsub.perm_of_length_le hle⟩

/-- As many types as the other list has, none twice, leave none of the other list out. -/
theorem covered_of_found {as bs : List Ty} (hlaw : ∀ a ∈ as, a.Lawful)
    (ha : ∀ a ∈ as, a.isProper = true) (hb : ∀ b ∈ bs, b.isProper = true)
    (hdist : isDistinct as = true) (hfound : ∀ a ∈ as, ∃ b ∈ bs, a.same b = true)
    (hlen : as.length = bs.length) : ∀ b ∈ bs, ∃ a ∈ as, a.same b = true := by
  obtain ⟨matched, hmatched, hperm⟩ := exists_perm_of_found hlaw ha hb hdist hfound hlen
  intro b hmem
  exact exists_of_forall₂ hmatched.flip (hperm.symm.subset hmem)

theorem sameTypes_iff {as bs : List Ty} :
    sameTypes as bs = true ↔ List.Forall₂ (fun a b => a.same b = true) as bs := by
  induction as generalizing bs with
  | nil => cases bs <;> simp [sameTypes]
  | cons a as ih => cases bs <;> simp [sameTypes, ih]

theorem sameSignatures_iff {ss ts : List Signature} :
    sameSignatures ss ts = true ↔ List.Forall₂ (fun s t => s.same t = true) ss ts := by
  induction ss generalizing ts with
  | nil => cases ts <;> simp [sameSignatures]
  | cons s ss ih => cases ts <;> simp [sameSignatures, ih]

theorem sameTypes_symm {as bs : List Ty} (hlaw : ∀ a ∈ as, a.Lawful)
    (hb : properTypes bs = true) (h : sameTypes as bs = true) : sameTypes bs as = true := by
  rw [properTypes_iff] at hb
  rw [sameTypes_iff] at h ⊢
  apply forall₂_symm_of h
  intro a ha b hb'
  exact (hlaw a ha).symm b (hb b hb')

theorem sameTypes_trans {as bs cs : List Ty} (hlaw : ∀ a ∈ as, a.Lawful)
    (hb : properTypes bs = true) (hc : properTypes cs = true) (h : sameTypes as bs = true)
    (h' : sameTypes bs cs = true) : sameTypes as cs = true := by
  rw [properTypes_iff] at hb hc
  rw [sameTypes_iff] at h h' ⊢
  apply forall₂_trans_of h h'
  intro a ha b hb' c hc'
  exact (hlaw a ha).trans b c (hb b hb') (hc c hc')

theorem sameSignatures_symm {ss ts : List Signature} (hlaw : ∀ s ∈ ss, s.Lawful)
    (ht : properSignatures ts = true) (h : sameSignatures ss ts = true) :
    sameSignatures ts ss = true := by
  rw [properSignatures_iff] at ht
  rw [sameSignatures_iff] at h ⊢
  apply forall₂_symm_of h
  intro s hs t ht'
  exact (hlaw s hs).symm t (ht t ht')

theorem sameSignatures_trans {ss ts us : List Signature} (hlaw : ∀ s ∈ ss, s.Lawful)
    (ht : properSignatures ts = true) (hu : properSignatures us = true)
    (h : sameSignatures ss ts = true) (h' : sameSignatures ts us = true) :
    sameSignatures ss us = true := by
  rw [properSignatures_iff] at ht hu
  rw [sameSignatures_iff] at h h' ⊢
  apply forall₂_trans_of h h'
  intro s hs t ht' u hu'
  exact (hlaw s hs).trans t u (ht t ht') (hu u hu')

theorem Ty.lawful_of_atom {a : Ty} (h : ∀ b, a.same b = true → b = a) : a.Lawful where
  symm b _ hb := by rw [h b hb]; exact a.same_self
  trans b c _ _ hb hc := by rw [h b hb] at hc; exact hc

theorem Ty.lawful_union {as : List Ty} (hproper : (Ty.union as).isProper = true)
    (hlaw : ∀ a ∈ as, a.Lawful) : (Ty.union as).Lawful := by
  obtain ⟨-, -, hdist, ha⟩ := Ty.isProper_union_iff.1 hproper
  constructor
  · intro b hb h
    cases b with
    | union bs =>
      obtain ⟨-, -, -, hbs⟩ := Ty.isProper_union_iff.1 hb
      simp only [Ty.same, Bool.and_eq_true, beq_iff_eq, allFound_iff] at h ⊢
      refine ⟨h.1.symm, ?_⟩
      intro b hmem
      obtain ⟨a, hmem', hsame⟩ := covered_of_found hlaw ha hbs hdist h.2 h.1 b hmem
      exact ⟨a, hmem', (hlaw a hmem').symm b (hbs b hmem) hsame⟩
    | _ => simp [Ty.same] at h
  · intro b c hb hc h h'
    cases b with
    | union bs =>
      cases c with
      | union cs =>
        obtain ⟨-, -, -, hbs⟩ := Ty.isProper_union_iff.1 hb
        obtain ⟨-, -, -, hcs⟩ := Ty.isProper_union_iff.1 hc
        simp only [Ty.same, Bool.and_eq_true, beq_iff_eq, allFound_iff] at h h' ⊢
        refine ⟨h.1.trans h'.1, ?_⟩
        intro a hmem
        obtain ⟨b, hb, hab⟩ := h.2 a hmem
        obtain ⟨c, hc, hbc⟩ := h'.2 b hb
        exact ⟨c, hc, (hlaw a hmem).trans b c (hbs b hb) (hcs c hc) hab hbc⟩
      | _ => simp [Ty.same] at h'
    | _ => simp [Ty.same] at h

mutual

theorem Ty.lawful : ∀ a : Ty, a.isProper = true → a.Lawful
  | .unknown, _ | .nil, _ | .boolean, _ | .number, _ | .string, _ =>
    Ty.lawful_of_atom fun b h => by cases b <;> simp_all [Ty.same]
  | .object name members, _ => by
    constructor
    · intro b _ h
      cases b <;> simp_all [Ty.same]
    · intro b c _ _ h h'
      cases b <;> cases c <;> simp_all [Ty.same]
  | .function ss, hproper => by
    have hlaw := lawful_signatures ss (by simpa [Ty.isProper] using hproper)
    constructor
    · intro b hb h
      cases b with
      | function ts =>
        simp only [Ty.same, Ty.isProper] at h hb ⊢
        exact sameSignatures_symm hlaw hb h
      | _ => simp [Ty.same] at h
    · intro b c hb hc h h'
      cases b with
      | function ts =>
        cases c with
        | function us =>
          simp only [Ty.same, Ty.isProper] at h h' hb hc ⊢
          exact sameSignatures_trans hlaw hb hc h h'
        | _ => simp [Ty.same] at h'
      | _ => simp [Ty.same] at h
  | .union members, hproper =>
    Ty.lawful_union hproper (lawful_types members (by simp_all [Ty.isProper]))

theorem Signature.lawful : ∀ s : Signature, s.isProper = true → s.Lawful
  | .mk params ret, hproper => by
    simp only [Signature.isProper, Bool.and_eq_true] at hproper
    have hparams := lawful_types params hproper.1
    have hret := Ty.lawful ret hproper.2
    constructor
    · intro t ht h
      cases t
      simp only [Signature.same, Signature.isProper, Bool.and_eq_true] at h ht ⊢
      exact ⟨sameTypes_symm hparams ht.1 h.1, hret.symm _ ht.2 h.2⟩
    · intro t u ht hu h h'
      cases t
      cases u
      simp only [Signature.same, Signature.isProper, Bool.and_eq_true] at h h' ht hu ⊢
      exact ⟨sameTypes_trans hparams ht.1 hu.1 h.1 h'.1, hret.trans _ _ ht.2 hu.2 h.2 h'.2⟩

theorem lawful_types : ∀ as : List Ty, properTypes as = true → ∀ a ∈ as, a.Lawful
  | [], _, _, h => nomatch h
  | a :: as, hproper, b, hmem => by
    simp only [properTypes, Bool.and_eq_true] at hproper
    rcases List.mem_cons.1 hmem with h | h
    · rw [h]
      exact Ty.lawful a hproper.1
    · exact lawful_types as hproper.2 b h

theorem lawful_signatures : ∀ ss : List Signature, properSignatures ss = true → ∀ s ∈ ss, s.Lawful
  | [], _, _, h => nomatch h
  | s :: ss, hproper, t, hmem => by
    simp only [properSignatures, Bool.and_eq_true] at hproper
    rcases List.mem_cons.1 hmem with h | h
    · rw [h]
      exact Signature.lawful s hproper.1
    · exact lawful_signatures ss hproper.2 t h

end

end LuaTypes
