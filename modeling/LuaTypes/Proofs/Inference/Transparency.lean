import LuaTypes.Proofs.Inference.Graph
import LuaTypes.Proofs.Inference.Knots

/-!
# When the memo does not show

A request finds the same type whatever was asked before, if all that it meets on cycles passes types
on and no member is read of what comes out of a cycle. Nothing less will do: for every other way in
which cycles may bear on an expression, there is a project where they do in this way only and the
order of requests shows.

* `Project.IsTransparent`: no history changes the type of an expression;
* `Project.ShowsHistory`: a project where history shows by a knot, `Project.exists_showsHistory`;
* `Project.isTransparent_iff`: knots that do not show are those that pass types on.
-/

namespace LuaTypes

/-- Whatever was asked before, a request finds a type that is equal to the one that it finds without
a memo. -/
def Project.IsTransparent (project : Project) (reach : Reach) (e : Filed Expr) : Prop :=
  ∀ history : List Request, (∀ request ∈ history, project.codebase.HasExpr request.expr) →
    ∃ ty ty', (project.codebase.inferFresh reach none e).1 = .value ty ∧
      (project.codebase.inferFresh reach (project.codebase.memoAfter history) e).1 = .value ty' ∧
      (ty' == ty) = true

/-! ### Knots and forms -/

/-- The form of the expressions that cycles bear on in this way, if it is a single one. -/
def Knot.form? : Knot → Option Form
  | .flow => none
  | .function => some .name
  | .closure => some .closure
  | .call => some .call
  | .member | .memberAbove => some .index

theorem Knot.eq_of_form?_eq {knot knot' : Knot} (h : knot'.form? = knot.form?)
    (hmember : knot.form? ≠ some .index) : knot' = knot := by
  cases knot <;> cases knot' <;> simp_all [Knot.form?]

namespace Codebase

variable {codebase : Codebase} {reach : Reach} {e : Filed Expr} {knot : Knot}

theorem Knotted.eq_flow_or_form (h : codebase.Knotted reach e knot) :
    knot = .flow ∨ knot.form? = some e.value.form := by
  cases h with
  | flow _ _ => exact Or.inl rfl
  | function _ hform _ | closure _ hform | call _ hform _ | member _ hform
  | memberAbove _ hform _ =>
    exact Or.inr (by rw [hform]; rfl)

theorem flow_of_index (hform : e.value.form = .index) : codebase.flow reach e = .ok none := by
  simp only [Codebase.flow, hform]
  rfl

theorem flow_of_closure (hform : e.value.form = .closure) : codebase.flow reach e = .ok none := by
  simp only [Codebase.flow, hform]
  rfl

theorem Knotted.eq_flow_of_passesOn (h : codebase.Knotted reach e knot)
    (hpasses : codebase.passesOn reach e = true) : knot = .flow := by
  obtain ⟨flow, hflow⟩ := exists_flow_of_passesOn hpasses
  cases h with
  | flow _ _ => rfl
  | function _ _ hnone | call _ _ hnone => cases hflow.symm.trans hnone
  | closure _ hform => cases hflow.symm.trans (flow_of_closure hform)
  | member _ hform | memberAbove _ hform _ => cases hflow.symm.trans (flow_of_index hform)

/-- Whether the types that are found of an expression without a memo and after a request for another
one pass a test. -/
def compareAfter (codebase : Codebase) (before part : Part) (test : Ty → Ty → Bool) : Bool :=
  codebase.testAt before fun first => codebase.testAt part fun e =>
    match (codebase.inferFresh .full none e).1,
      (codebase.inferFresh .full (codebase.memoAfter [⟨.full, first⟩]) e).1 with
    | .value ty, .value ty' => test ty ty'
    | _, _ => false

theorem Closed.exists_of_compareAfter (hclosed : codebase.Closed) {before part : Part}
    {test : Ty → Ty → Bool} (h : codebase.compareAfter before part test = true) :
    ∃ first e ty ty', codebase.expr? before = .ok (some first) ∧
      codebase.expr? part = .ok (some e) ∧
      (codebase.inferFresh .full none e).1 = .value ty ∧
      (codebase.inferFresh .full (codebase.memoAfter [⟨.full, first⟩]) e).1 = .value ty' ∧
      test ty ty' = true := by
  obtain ⟨first, hfirst, -, h⟩ := hclosed.exists_of_testAt h
  obtain ⟨e, he, -, h⟩ := hclosed.exists_of_testAt h
  split at h
  · next ty ty' halone hafter => exact ⟨first, e, ty, ty', hfirst, he, halone, hafter, h⟩
  · cases h

end Codebase

/-! ### Projects where history shows -/

namespace Project

/-- History shows in a project where cycles bear on expressions in one way only, apart from those
that pass types on. -/
structure ShowsHistory (project : Project) (knot : Knot) : Prop where
  made : ∀ tree ∈ project.files, Made tree
  types : project.HasProperTypes
  knotted : ∀ e knot', project.codebase.HasExpr e → project.codebase.Knotted .full e knot' →
    knot' = .flow ∨ knot' = knot
  shows : ∃ e, project.codebase.HasExpr e ∧ ¬project.IsTransparent .full e

theorem not_isTransparent {project : Project} {first e : Filed Expr}
    (hfirst : project.codebase.HasExpr first) {ty ty' : Ty}
    (halone : (project.codebase.inferFresh .full none e).1 = .value ty)
    (hafter : (project.codebase.inferFresh .full
      (project.codebase.memoAfter [⟨.full, first⟩]) e).1 = .value ty')
    (hne : (ty' == ty) = false) : ¬project.IsTransparent .full e := by
  intro h
  obtain ⟨ty₁, ty₁', halone', hafter', hsame⟩ := h [⟨.full, first⟩] (by simpa using hfirst)
  cases halone.symm.trans halone'
  cases hafter.symm.trans hafter'
  rw [hne] at hsame
  cases hsame

/-- What a test of all expressions and a comparison of two requests show. -/
theorem showsHistory_of_tests {project : Project} {knot : Knot}
    (before part : Part) (made : ∀ tree ∈ project.files, Made tree) (types : project.HasProperTypes)
    (hforms : project.codebase.every (fun e =>
      project.codebase.passesOn .full e || knot.form? == some e.value.form) = true)
    (hknot : ∀ e knot', project.codebase.HasExpr e → project.codebase.Knotted .full e knot' →
      knot'.form? = knot.form? → knot' = knot)
    (hdiffer : project.codebase.compareAfter before part (fun ty ty' => !ty'.same ty) = true) :
    project.ShowsHistory knot := by
  refine ⟨made, types, ?_, ?_⟩
  · intro e knot' he h
    rcases Bool.or_eq_true_iff.1 (Codebase.test_of_every hforms he) with hpasses | hform
    · exact Or.inl (h.eq_flow_of_passesOn hpasses)
    · rcases h.eq_flow_or_form with hflow | hform'
      · exact Or.inl hflow
      · right
        apply hknot e knot' he h
        rw [hform', eq_of_beq hform]
  · have hclosed := Project.closed made
    obtain ⟨first, e, ty, ty', hfirst, he, halone, hafter, hne⟩ :=
      hclosed.exists_of_compareAfter hdiffer
    refine ⟨e, hclosed.hasExpr_of_expr? he, ?_⟩
    exact not_isTransparent (hclosed.hasExpr_of_expr? hfirst) halone hafter (by simpa using hne)

section Samples

open Build

/-- A class with one member. -/
def classWith (ty : Ty) : Ty := .object "C" [.mk "f" ty]

/-- A function that returns itself, in parentheses. -/
def selfNaming : Project :=
  declaring (localFunction "f" [] [returnStmt [paren (name "f")]]) (name "f")

/-- A function without a name that returns the variable that it is assigned to. -/
def selfReturning : Project :=
  declaring (localStmt ["f"] [closure [] [returnStmt [name "f"]]]) (name "f")

/-- A variable that begins with a call of itself. -/
def selfCalling : Project :=
  (declaring (localStmt ["x"] [orElse (call (name "x") []) (name "g")]) (name "x")).withGlobal "g"
    (.ofSignature [] .number)

/-- A variable that begins with a member of itself. -/
def selfReading : Project :=
  (declaring (localStmt ["x"] [orElse (field (name "x") "f") (name "c")]) (name "x")).withGlobal "c"
    (classWith .number)

/-- A member of a variable that begins with itself or one of two classes, which have one name. -/
def readingCycle : Project :=
  ((declaring (localStmt ["x"] [orElse (paren (orElse (name "x") (name "c"))) (name "d")])
    (field (name "x") "f")).withGlobal "c" (classWith .number)).withGlobal "d" (classWith .string)

theorem selfNaming_shows : selfNaming.ShowsHistory .function := by
  have hmade : ∀ tree ∈ selfNaming.files, Made tree :=
    made_declaring (.localFunction _ _ (made_one (.returnStmt (made_one (.paren (.name _))))))
      (.name _)
  exact showsHistory_of_tests ⟨0, 0⟩ ⟨0, 1⟩ hmade (hasProperTypes_ofTree _) (by decide +kernel)
    (fun _ _ _ _ h => Knot.eq_of_form?_eq h (by decide)) (by decide +kernel)

theorem made_selfReturning : ∀ tree ∈ selfReturning.files, Made tree :=
  made_declaring (.localStmt _ (made_one (.closure _ (made_one (.returnStmt
    (made_one (.name _))))))) (.name _)

theorem selfReturning_shows : selfReturning.ShowsHistory .closure :=
  showsHistory_of_tests ⟨0, 1⟩ ⟨0, 0⟩ made_selfReturning (hasProperTypes_ofTree _)
    (by decide +kernel) (fun _ _ _ _ h => Knot.eq_of_form?_eq h (by decide)) (by decide +kernel)

theorem selfCalling_shows : selfCalling.ShowsHistory .call := by
  have hmade : ∀ tree ∈ selfCalling.files, Made tree :=
    made_declaring (.localStmt _ (made_one (made_orElse (.call (.name _) nofun) (.name _))))
      (.name _)
  exact showsHistory_of_tests ⟨0, 1⟩ ⟨0, 0⟩ hmade ((hasProperTypes_ofTree _).withGlobal _ rfl)
    (by decide +kernel) (fun _ _ _ _ h => Knot.eq_of_form?_eq h (by decide)) (by decide +kernel)

theorem selfReading_shows : selfReading.ShowsHistory .member := by
  have hmade : ∀ tree ∈ selfReading.files, Made tree :=
    made_declaring (.localStmt _ (made_one (made_orElse (.field (.name _) _) (.name _)))) (.name _)
  have hclosed := Project.closed hmade
  refine showsHistory_of_tests ⟨0, 1⟩ ⟨0, 0⟩ hmade ((hasProperTypes_ofTree _).withGlobal _ rfl)
    (by decide +kernel) ?_ (by decide +kernel)
  intro e knot he hknot hform
  -- the one member that is read is on a cycle, by way of the variable and its initializer
  have htest : selfReading.codebase.every (fun e => e.value.form != .index ||
      selfReading.codebase.testAt ⟨0, 2⟩ fun x => selfReading.codebase.testAt ⟨0, 0⟩ fun either =>
        selfReading.codebase.isAsked .full e x && selfReading.codebase.isAsked .full x either &&
          selfReading.codebase.isAsked .full either e) = true := by decide +kernel
  cases hknot with
  | member _ _ => rfl
  | memberAbove hcycle hindex _ =>
    have hasked := Codebase.test_of_every htest he
    simp only [hindex, bne_self_eq_false, Bool.false_or] at hasked
    obtain ⟨x, -, hx, hasked⟩ := hclosed.exists_of_testAt hasked
    obtain ⟨either, -, heither, hasked⟩ := hclosed.exists_of_testAt hasked
    simp only [Bool.and_eq_true] at hasked
    refine absurd (.head (hclosed.asks_of_isAsked hasked.1.1 he hx) ?_) hcycle
    exact .head (hclosed.asks_of_isAsked hasked.1.2 hx heither)
      (.single (hclosed.asks_of_isAsked hasked.2 heither he))
  | _ => cases hform

theorem readingCycle_shows : readingCycle.ShowsHistory .memberAbove := by
  have hmade : ∀ tree ∈ readingCycle.files, Made tree :=
    made_declaring (.localStmt _ (made_one (made_orElse
      (.paren (made_orElse (.name _) (.name _))) (.name _)))) (.field (.name _) _)
  have hclosed := Project.closed hmade
  refine showsHistory_of_tests ⟨0, 2⟩ ⟨0, 6⟩ hmade
    (((hasProperTypes_ofTree _).withGlobal _ rfl).withGlobal _ rfl)
    (by decide +kernel) ?_ (by decide +kernel)
  intro e knot he hknot hform
  -- nothing asks for the one member that is read
  have htest : readingCycle.codebase.every (fun e => e.value.form != .index ||
      readingCycle.codebase.isUnasked .full e) = true := by decide +kernel
  cases hknot with
  | member hcycle hindex =>
    have hunasked := Codebase.test_of_every htest he
    simp only [hindex, bne_self_eq_false, Bool.false_or] at hunasked
    exact absurd hcycle (hclosed.not_onCycle_of_isUnasked hunasked he)
  | memberAbove _ _ _ => rfl
  | _ => cases hform

end Samples

/-- Every knot shows somewhere but that of what passes types on. -/
theorem exists_showsHistory {knot : Knot} (h : knot ≠ .flow) :
    ∃ project : Project, project.ShowsHistory knot := by
  cases knot with
  | flow => exact absurd rfl h
  | function => exact ⟨_, selfNaming_shows⟩
  | closure => exact ⟨_, selfReturning_shows⟩
  | call => exact ⟨_, selfCalling_shows⟩
  | member => exact ⟨_, selfReading_shows⟩
  | memberAbove => exact ⟨_, readingCycle_shows⟩

/-- No history changes the type of a tame expression. -/
theorem isTransparent_of_isTame {project : Project} (hmade : ∀ tree ∈ project.files, Made tree)
    (htypes : project.HasProperTypes) {reach : Reach} {e : Filed Expr}
    (he : project.codebase.IsTame reach e) : project.IsTransparent reach e := by
  intro history hhistory
  obtain ⟨ty', hafter, hagree⟩ := Project.agree_of_isTame hmade htypes he hhistory
  refine ⟨_, ty', (Project.closed hmade).inferFresh_alone reach he.hasExpr, hafter, ?_⟩
  rw [Ty.beq_eq]
  exact hagree.same

/-- That cycles bear on what is met in some ways only, besides passing types on, keeps history from
showing if and only if there are no such ways. -/
theorem isTransparent_iff (more : Knot → Prop) :
    (∀ project : Project, (∀ tree ∈ project.files, Made tree) → project.HasProperTypes →
      ∀ reach e, project.codebase.HasExpr e →
        (∀ other knot, project.codebase.Reaches reach e other →
          project.codebase.Knotted reach other knot → knot = .flow ∨ more knot) →
        project.IsTransparent reach e) ↔
      ∀ knot, more knot → knot = .flow := by
  constructor
  · intro h knot hmore
    by_contra hknot
    obtain ⟨project, hshows⟩ := exists_showsHistory hknot
    obtain ⟨e, he, hshow⟩ := hshows.shows
    apply hshow
    apply h project hshows.made hshows.types .full e he
    intro other knot' hway hknotted
    have hother := (Project.closed hshows.made).hasExpr_of_reaches he hway
    refine (hshows.knotted other knot' hother hknotted).imp_right ?_
    rintro rfl
    exact hmore
  · intro h project hmade htypes reach e he hknotted
    apply isTransparent_of_isTame hmade htypes
    refine ⟨he, ?_⟩
    intro other knot hway hknot
    rcases hknotted other knot hway hknot with hflow | hmore
    · exact hflow
    · exact h knot hmore

/-- Once the variable in its body has been asked for, a closure that returns it is found to return a
function that returns a function. -/
theorem selfReturning_not_isTransparent :
    ∃ inner closure ty ty', selfReturning.codebase.expr? ⟨0, 1⟩ = .ok (some inner) ∧
      selfReturning.codebase.expr? ⟨0, 0⟩ = .ok (some closure) ∧
      (selfReturning.codebase.inferFresh .full none closure).1 = .value ty ∧
      (selfReturning.codebase.inferFresh .full
        (selfReturning.codebase.memoAfter [⟨.full, inner⟩]) closure).1 = .value ty' ∧
      (ty == Ty.ofSignature [] .unknown) = true ∧
      (ty' == Ty.ofSignature [] (.ofSignature [] .unknown)) = true ∧ (ty' == ty) = false ∧
      ¬selfReturning.IsTransparent .full closure := by
  have htest : selfReturning.codebase.compareAfter ⟨0, 1⟩ ⟨0, 0⟩ (fun ty ty' =>
      ty.same (.ofSignature [] .unknown) && ty'.same (.ofSignature [] (.ofSignature [] .unknown)) &&
        !ty'.same ty) = true := by decide +kernel
  have hclosed := Project.closed made_selfReturning
  obtain ⟨inner, closure, ty, ty', hinner, hclosure, halone, hafter, htypes⟩ :=
    hclosed.exists_of_compareAfter htest
  simp only [Bool.and_eq_true, Bool.not_eq_true', ← Ty.beq_eq] at htypes
  exact ⟨inner, closure, ty, ty', hinner, hclosure, halone, hafter, htypes.1.1, htypes.1.2,
    htypes.2, not_isTransparent (hclosed.hasExpr_of_expr? hinner) halone hafter htypes.2⟩

end Project

end LuaTypes
