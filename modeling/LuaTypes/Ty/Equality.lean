import LuaTypes.Ty.Basic

/-!
# Equality of types

Types are equal (`==`) when they mean the same (`Ty.beq_eq`). Types share their parts: the type of
a variable occurs wherever the variable is used, and a type written out may be exponentially larger
than what is stored of it. So whether two types mean the same is found without looking into what
is stored once and thus one and the same (`Ty.decideSame`).
-/

namespace LuaTypes

/-! ### A type means the same as itself -/

mutual

theorem Ty.same_self : ∀ a : Ty, a.same a = true
  | .unknown | .nil | .boolean | .number | .string => by simp [Ty.same]
  | .function signatures => by simp [Ty.same, sameSignatures_self signatures]
  | .object .. => by simp [Ty.same]
  | .union members => by simp [Ty.same, allFound_of_subset members members fun _ h => h]

theorem Signature.same_self : ∀ s : Signature, s.same s = true
  | .mk params ret => by simp [Signature.same, sameTypes_self params, Ty.same_self ret]

theorem sameTypes_self : ∀ as : List Ty, sameTypes as as = true
  | [] => by simp [sameTypes]
  | a :: as => by simp [sameTypes, Ty.same_self a, sameTypes_self as]

theorem sameSignatures_self : ∀ ss : List Signature, sameSignatures ss ss = true
  | [] => by simp [sameSignatures]
  | s :: ss => by simp [sameSignatures, Signature.same_self s, sameSignatures_self ss]

theorem allFound_of_subset : ∀ as bs : List Ty, (∀ a ∈ as, a ∈ bs) → allFound as bs = true
  | [], _, _ => by simp [allFound]
  | a :: as, bs, h => by
    simp only [allFound, Bool.and_eq_true, List.any_eq_true]
    exact ⟨⟨a, h a List.mem_cons_self, Ty.same_self a⟩,
      allFound_of_subset as bs fun b hb => h b (List.mem_cons_of_mem _ hb)⟩

end

/-! ### Lists of different lengths -/

theorem length_eq_of_sameTypes : ∀ {as bs : List Ty}, sameTypes as bs = true →
    as.length = bs.length
  | [], [], _ => rfl
  | [], _ :: _, h => by simp [sameTypes] at h
  | _ :: _, [], h => by simp [sameTypes] at h
  | _ :: as, _ :: bs, h => by
    simp only [sameTypes, Bool.and_eq_true] at h
    simp [length_eq_of_sameTypes h.2]

theorem length_eq_of_sameSignatures : ∀ {ss ts : List Signature}, sameSignatures ss ts = true →
    ss.length = ts.length
  | [], [], _ => rfl
  | [], _ :: _, h => by simp [sameSignatures] at h
  | _ :: _, [], h => by simp [sameSignatures] at h
  | _ :: ss, _ :: ts, h => by
    simp only [sameSignatures, Bool.and_eq_true] at h
    simp [length_eq_of_sameSignatures h.2]

/-- A condition that a test implies may be tested first. -/
theorem and_eq_of_imp {condition test : Bool} (h : test = true → condition = true) :
    (condition && test) = test := by
  cases test <;> simp_all

/-! ### Deciding without repetition -/

/-- An answer to the question whether two types mean the same. -/
abbrev Ty.Verdict (a b : Ty) := { answer : Bool // answer = a.same b }

/-- Two types that are stored once are one; others have to be looked at. -/
@[inline] def Ty.unlessOne (a b : Ty) (look : Unit → Verdict a b) : Verdict a b :=
  ⟨withPtrEq a b (fun _ => (look ()).val) fun h => by
    rw [(look ()).property, h, Ty.same_self], (look ()).property⟩

mutual

/-- Whether two types mean the same. -/
def Ty.decideSame (a b : Ty) : Ty.Verdict a b :=
  a.unlessOne b fun _ =>
    match a, b with
    | .function ss, .function ts =>
      ⟨ss.length == ts.length && (decideSameSignatures ss ts).val, by
        rw [(decideSameSignatures ss ts).property, Ty.same]
        exact and_eq_of_imp fun h => beq_iff_eq.2 (length_eq_of_sameSignatures h)⟩
    | .union as, .union bs =>
      ⟨as.length == bs.length && (decideAllFound as bs).val, by
        rw [(decideAllFound as bs).property, Ty.same]⟩
    | a, b => ⟨a.same b, rfl⟩
termination_by structural a

/-- Whether two signatures mean the same. -/
def Signature.decideSame : (s t : Signature) → { answer : Bool // answer = s.same t }
  | .mk params ret, .mk params' ret' =>
    ⟨(params.length == params'.length && (decideSameTypes params params').val) &&
        (ret.decideSame ret').val, by
      rw [(decideSameTypes params params').property, (ret.decideSame ret').property,
        Signature.same, and_eq_of_imp fun h => beq_iff_eq.2 (length_eq_of_sameTypes h)]⟩
termination_by structural s => s

/-- Whether two lists hold types that mean the same. -/
def decideSameTypes : (as bs : List Ty) → { answer : Bool // answer = sameTypes as bs }
  | a :: as, b :: bs =>
    ⟨(a.decideSame b).val && (decideSameTypes as bs).val, by
      rw [(a.decideSame b).property, (decideSameTypes as bs).property, sameTypes]⟩
  | [], bs => ⟨sameTypes [] bs, rfl⟩
  | a :: as, [] => ⟨false, by simp [sameTypes]⟩
termination_by structural as => as

/-- Whether two lists hold signatures that mean the same. -/
def decideSameSignatures :
    (ss ts : List Signature) → { answer : Bool // answer = sameSignatures ss ts }
  | s :: ss, t :: ts =>
    ⟨(s.decideSame t).val && (decideSameSignatures ss ts).val, by
      rw [(s.decideSame t).property, (decideSameSignatures ss ts).property, sameSignatures]⟩
  | [], ts => ⟨sameSignatures [] ts, rfl⟩
  | s :: ss, [] => ⟨false, by simp [sameSignatures]⟩
termination_by structural ss => ss

/-- Whether each type of the first list means the same as one of the second. -/
def decideAllFound : (as bs : List Ty) → { answer : Bool // answer = allFound as bs }
  | [], bs => ⟨true, by rw [allFound]⟩
  | a :: as, bs =>
    ⟨bs.any (fun b => (a.decideSame b).val) && (decideAllFound as bs).val, by
      rw [(decideAllFound as bs).property, allFound,
        funext fun b => (a.decideSame b).property]⟩
termination_by structural as => as

end

instance : BEq Ty := ⟨fun a b => (a.decideSame b).val⟩
instance : BEq Signature := ⟨fun s t => (s.decideSame t).val⟩

@[simp] theorem Ty.beq_eq (a b : Ty) : (a == b) = a.same b := (a.decideSame b).property

@[simp] theorem Signature.beq_eq (s t : Signature) : (s == t) = s.same t :=
  (s.decideSame t).property

end LuaTypes
