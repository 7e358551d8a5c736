import LuaTypes.Proofs.Ty.Built
import LuaTypes.Ty.Serial

/-!
# Equality of types as equality of their data

Other programs compare types by the data that they are handed. The data give a class by its name
and the members of a union in the order in which the union came about, so data of equal types are
equal but for that order, at whatever depth a union stands. The converse holds as well: nothing
that tells types apart is lost.

* `Serial.Reordered`: data that are the same but for the order of the members of unions;
* `Ty.Faithful`: a type whose data tell it from others; one lemma for each kind of type;
* `Ty.beq_iff_reordered`: equality of built types.
-/

namespace LuaTypes

namespace Serial

/-- Data that are the same but for the order of the members of unions, at whatever depth. -/
inductive Reordered : Serial → Serial → Prop
  | text (value : String) : Reordered (.text value) (.text value)
  | list {items items' : List Serial} (h : List.Forall₂ Reordered items items') :
    Reordered (.list items) (.list items')
  | record {fields fields' : List (String × Serial)}
    (hnames : fields.map Prod.fst = fields'.map Prod.fst)
    (hvalues : List.Forall₂ Reordered (fields.map Prod.snd) (fields'.map Prod.snd)) :
    Reordered (.record fields) (.record fields')
  | union {members matched members' : List Serial} (h : List.Forall₂ Reordered members matched)
    (hperm : matched.Perm members') :
    Reordered (.record [("kind", .text "union"), ("members", .list members)])
      (.record [("kind", .text "union"), ("members", .list members')])

@[simp] theorem reordered_text_iff {value value' : String} :
    Reordered (.text value) (.text value') ↔ value = value' := by
  constructor
  · rintro ⟨⟩
    rfl
  · rintro rfl
    exact .text value

@[simp] theorem reordered_list_iff {items items' : List Serial} :
    Reordered (.list items) (.list items') ↔ List.Forall₂ Reordered items items' := by
  constructor
  · rintro ⟨⟩
    assumption
  · exact .list

theorem reordered_record_iff {fields fields' : List (String × Serial)} :
    Reordered (.record fields) (.record fields') ↔
      (fields.map Prod.fst = fields'.map Prod.fst ∧
        List.Forall₂ Reordered (fields.map Prod.snd) (fields'.map Prod.snd)) ∨
      ∃ members matched members', fields = [("kind", .text "union"), ("members", .list members)] ∧
        fields' = [("kind", .text "union"), ("members", .list members')] ∧
        List.Forall₂ Reordered members matched ∧ matched.Perm members' := by
  constructor
  · intro h
    cases h with
    | record hnames hvalues => exact .inl ⟨hnames, hvalues⟩
    | union h hperm => exact .inr ⟨_, _, _, rfl, rfl, h, hperm⟩
  · rintro (⟨hnames, hvalues⟩ | ⟨members, matched, members', rfl, rfl, h, hperm⟩)
    · exact .record hnames hvalues
    · exact .union h hperm

/-- Records with different tags are different, and only those of unions may be reordered. -/
theorem reordered_tagged_iff {tag tag' : String} {fields fields' : List (String × Serial)}
    (h : ¬(tag = "union" ∧ tag' = "union")) :
    Reordered (tagged tag fields) (tagged tag' fields') ↔ tag = tag' ∧
      fields.map Prod.fst = fields'.map Prod.fst ∧
      List.Forall₂ Reordered (fields.map Prod.snd) (fields'.map Prod.snd) := by
  rw [tagged, tagged, reordered_record_iff]
  simp only [List.map_cons, List.forall₂_cons, List.cons.injEq, reordered_text_iff, true_and]
  constructor
  · rintro (⟨hnames, htag, hvalues⟩ | ⟨members, matched, members', hunion, hunion', -⟩)
    · exact ⟨htag, hnames, hvalues⟩
    · exact absurd ⟨by simpa using hunion.1, by simpa using hunion'.1⟩ h
  · rintro ⟨htag, hnames, hvalues⟩
    exact .inl ⟨hnames, htag, hvalues⟩

theorem reordered_union_iff {members members' : List Serial} :
    Reordered (tagged "union" [("members", .list members)])
      (tagged "union" [("members", .list members')]) ↔
      ∃ matched, List.Forall₂ Reordered members matched ∧ matched.Perm members' := by
  rw [tagged, tagged, reordered_record_iff]
  constructor
  · rintro (⟨-, hvalues⟩ | ⟨left, matched, right, hleft, hright, h, hperm⟩)
    · have hmembers : List.Forall₂ Reordered members members' := by simpa using hvalues
      exact ⟨members', hmembers, .refl _⟩
    · obtain rfl : members = left := by simpa using hleft
      obtain rfl : members' = right := by simpa using hright
      exact ⟨matched, h, hperm⟩
  · rintro ⟨matched, h, hperm⟩
    exact .inr ⟨members, matched, members', rfl, rfl, h, hperm⟩

end Serial

/-! ### Lists of types as data -/

theorem serialTypes_eq_map (detail : Detail) (tys : List Ty) :
    serialTypes detail tys = tys.map (Ty.serial detail) := by
  induction tys with
  | nil => rfl
  | cons ty tys ih => rw [serialTypes, ih, List.map_cons]

theorem serialSignatures_eq_map (detail : Detail) (signatures : List Signature) :
    serialSignatures detail signatures = signatures.map (Signature.serial detail) := by
  induction signatures with
  | nil => rfl
  | cons signature signatures ih => rw [serialSignatures, ih, List.map_cons]

/-! ### Types told apart by their data -/

/-- A type means the same as another one just when their data are the same but for the order of the
members of unions. -/
def Ty.Faithful (a : Ty) : Prop := ∀ b, b.isProper = true →
  (a.same b = true ↔ (a.serial .nominal).Reordered (b.serial .nominal))

/-- A signature means the same as another one just when their data are the same but for the order of
the members of unions. -/
def Signature.Faithful (s : Signature) : Prop := ∀ t, t.isProper = true →
  (s.same t = true ↔ (s.serial .nominal).Reordered (t.serial .nominal))

theorem sameTypes_iff_reordered {as bs : List Ty} (has : ∀ a ∈ as, a.Faithful)
    (hbs : properTypes bs = true) : sameTypes as bs = true ↔
      List.Forall₂ Serial.Reordered (serialTypes .nominal as) (serialTypes .nominal bs) := by
  rw [properTypes_iff] at hbs
  rw [sameTypes_iff, serialTypes_eq_map, serialTypes_eq_map, List.forall₂_map_left_iff,
    List.forall₂_map_right_iff]
  exact forall₂_iff_of fun a ha b hb => has a ha b (hbs b hb)

theorem sameSignatures_iff_reordered {ss ts : List Signature} (hss : ∀ s ∈ ss, s.Faithful)
    (hts : properSignatures ts = true) : sameSignatures ss ts = true ↔
      List.Forall₂ Serial.Reordered (serialSignatures .nominal ss)
        (serialSignatures .nominal ts) := by
  rw [properSignatures_iff] at hts
  rw [sameSignatures_iff, serialSignatures_eq_map, serialSignatures_eq_map,
    List.forall₂_map_left_iff, List.forall₂_map_right_iff]
  exact forall₂_iff_of fun s hs t ht => hss s hs t (hts t ht)

theorem Signature.faithful_mk {params : List Ty} {ret : Ty} (hparams : ∀ a ∈ params, a.Faithful)
    (hret : ret.Faithful) : (Signature.mk params ret).Faithful := by
  intro t ht
  cases t with
  | mk params' ret' =>
    rw [Signature.isProper, Bool.and_eq_true] at ht
    rw [Signature.same, Bool.and_eq_true, sameTypes_iff_reordered hparams ht.1, hret ret' ht.2]
    simp [Signature.serial, Serial.reordered_record_iff]

theorem Ty.faithful_function {signatures : List Signature}
    (h : ∀ s ∈ signatures, s.Faithful) : (Ty.function signatures).Faithful := by
  intro b hb
  cases b with
  | function signatures' =>
    rw [Ty.isProper] at hb
    rw [Ty.same, sameSignatures_iff_reordered h hb]
    simp [Ty.serial, Serial.reordered_tagged_iff]
  | _ => simp [Ty.same, Ty.serial, Serial.reordered_tagged_iff]

theorem Ty.faithful_object (name : String) (members : List Member) :
    (Ty.object name members).Faithful := by
  intro b _
  cases b <;> simp [Ty.same, Ty.serial, Serial.reordered_tagged_iff]

/-- A union is compared with another in one direction; a matching of their members is what makes
the data of one a reordering of the other's. -/
theorem Ty.faithful_union {as : List Ty} (hproper : (Ty.union as).isProper = true)
    (h : ∀ a ∈ as, a.Faithful) : (Ty.union as).Faithful := by
  obtain ⟨-, -, hdist, has⟩ := Ty.isProper_union_iff.1 hproper
  intro b hb
  cases b with
  | union bs =>
    obtain ⟨-, -, -, hbs⟩ := Ty.isProper_union_iff.1 hb
    rw [Ty.serial, Ty.serial, Serial.reordered_union_iff, serialTypes_eq_map, serialTypes_eq_map]
    simp only [Ty.same, Bool.and_eq_true, beq_iff_eq, allFound_iff]
    constructor
    · rintro ⟨hlen, hfound⟩
      have hlaw : ∀ a ∈ as, a.Lawful := fun a ha => Ty.lawful a (has a ha)
      obtain ⟨matched, hmatched, hperm⟩ := exists_perm_of_found hlaw has hbs hdist hfound hlen
      refine ⟨matched.map (Ty.serial .nominal), ?_, hperm.map _⟩
      rw [List.forall₂_map_left_iff, List.forall₂_map_right_iff]
      refine (forall₂_iff_of fun a ha b hb => ?_).1 hmatched
      exact h a ha b (hbs b (hperm.subset hb))
    · rintro ⟨matched, hmatched, hperm⟩
      have hlen := hmatched.length_eq.trans hperm.length_eq
      rw [List.length_map, List.length_map] at hlen
      refine ⟨hlen, fun a ha => ?_⟩
      obtain ⟨data, hdata, hreordered⟩ := exists_of_forall₂ hmatched (List.mem_map_of_mem ha)
      obtain ⟨b, hmem, rfl⟩ := List.mem_map.1 (hperm.subset hdata)
      exact ⟨b, hmem, (h a ha b (hbs b hmem)).2 hreordered⟩
  | _ => simp [Ty.same, Ty.serial, Serial.reordered_tagged_iff]

mutual

theorem Ty.faithful : ∀ a : Ty, a.isProper = true → a.Faithful
  | .unknown, _ | .nil, _ | .boolean, _ | .number, _ | .string, _ => by
    intro b _
    cases b <;> simp [Ty.same, Ty.serial, Serial.reordered_tagged_iff]
  | .object name members, _ => Ty.faithful_object name members
  | .function signatures, hproper => by
    rw [Ty.isProper] at hproper
    exact Ty.faithful_function (faithful_signatures signatures hproper)
  | .union members, hproper =>
    Ty.faithful_union hproper (faithful_types members (by simp_all [Ty.isProper]))

theorem Signature.faithful : ∀ s : Signature, s.isProper = true → s.Faithful
  | .mk params ret, hproper => by
    rw [Signature.isProper, Bool.and_eq_true] at hproper
    exact Signature.faithful_mk (faithful_types params hproper.1) (Ty.faithful ret hproper.2)

theorem faithful_types : ∀ as : List Ty, properTypes as = true → ∀ a ∈ as, a.Faithful
  | [], _ => List.forall_mem_nil _
  | a :: as, hproper => by
    rw [properTypes, Bool.and_eq_true] at hproper
    exact List.forall_mem_cons.2 ⟨Ty.faithful a hproper.1, faithful_types as hproper.2⟩

theorem faithful_signatures : ∀ ss : List Signature, properSignatures ss = true →
    ∀ s ∈ ss, s.Faithful
  | [], _ => List.forall_mem_nil _
  | s :: ss, hproper => by
    rw [properSignatures, Bool.and_eq_true] at hproper
    exact List.forall_mem_cons.2 ⟨Signature.faithful s hproper.1, faithful_signatures ss hproper.2⟩

end

/-- Built types are equal just when their data are the same but for the order of the members of
unions, at whatever depth. -/
theorem Ty.beq_iff_reordered {a b : Ty} (ha : a.Built) (hb : b.Built) :
    (a == b) = true ↔ (a.serial .nominal).Reordered (b.serial .nominal) := by
  rw [Ty.beq_eq]
  exact Ty.faithful a ha.isProper b hb.isProper

/-- A union in what a function returns, which is a member of a union itself: the members stand in
other orders on both levels. A member of the class is declared in one of the types only. -/
theorem Ty.reordered_nested :
    let a := union [object "C" [.mk "field" .nil], ofSignature [] (union [number, string])]
    let b := union [ofSignature [] (union [string, number]), ofClass "C"]
    a.Built ∧ b.Built ∧ (a == b) = true ∧ (a.serial .nominal).Reordered (b.serial .nominal) := by
  intro a b
  have hnumber : (union [number, string]).Built := .join .number .string
  have hstring : (union [string, number]).Built := .join .string .number
  have ha : a.Built := .join (.declare (.ofClass "C") "field" .nil)
    (.ofSignature (List.forall_mem_nil _) hnumber)
  have hb : b.Built := .join (.ofSignature (List.forall_mem_nil _) hstring) (.ofClass "C")
  have hab : (a == b) = true := by decide
  exact ⟨ha, hb, hab, (beq_iff_reordered ha hb).1 hab⟩

end LuaTypes
