import LuaTypes.Proofs.Inference.Graph
import Mathlib.Data.Set.Finite.Lattice

/-!
# Inference computes reachability

From an expression from which only literals, tables, names without a function, parentheses,
operators and calls that load modules are met, inference computes reachability: its type is the
union of the types that come in along the way, with the unknown type if a cycle is met. It does not
matter what was asked before.

* `Codebase.FlowsTo`, `Codebase.Incoming`: the graph of such expressions and the types that come in;
* `Codebase.Closed.exists_incoming`: finitely many types come in;
* `Project.infer_incoming`: their union is found.
-/

namespace LuaTypes

namespace Codebase

variable (codebase : Codebase) (reach : Reach)

/-- The first expression passes on the type of the second. -/
def FlowsTo (e other : Filed Expr) : Prop :=
  ∃ flow, codebase.flow reach e = .ok (some flow) ∧ .expr other ∈ flow.sources

/-- The type of the second expression is passed on to the first along a way, or it is the first. -/
def FlowReaches : Filed Expr → Filed Expr → Prop := Relation.ReflTransGen (codebase.FlowsTo reach)

/-- All that is met from an expression passes types on. -/
def OnlyFlows (e : Filed Expr) : Prop :=
  ∀ other, codebase.FlowReaches reach e other → ∃ flow, codebase.flow reach other = .ok (some flow)

/-- A type comes in at an expression that is met. -/
def LeafType (e : Filed Expr) (ty : Ty) : Prop :=
  ∃ leaf flow, codebase.FlowReaches reach e leaf ∧ codebase.flow reach leaf = .ok (some flow) ∧
    .type ty ∈ flow.sources

/-- A cycle is met. -/
def MeetsCycle (e : Filed Expr) : Prop :=
  ∃ other, codebase.FlowReaches reach e other ∧
    Relation.TransGen (codebase.FlowsTo reach) other other

/-- The types that come in from an expression on, with the unknown type if a cycle is met. -/
def Incoming (e : Filed Expr) (tys : List Ty) : Prop :=
  ∀ ty, ty ∈ tys ↔ codebase.LeafType reach e ty ∨ (ty = .unknown ∧ codebase.MeetsCycle reach e)

/-! ### Finitely many types come in -/

variable {codebase reach}

theorem FlowsTo.asks {e other : Filed Expr} (h : codebase.FlowsTo reach e other) :
    codebase.Asks reach e other := by
  obtain ⟨flow, hflow, hmem⟩ := h
  rw [Asks, typeOf_eq_flow hflow]
  exact Flow.mayAsk_of_source hmem

theorem flowsTo_of_asks {e other : Filed Expr} {flow : Flow}
    (hflow : codebase.flow reach e = .ok (some flow)) (hask : codebase.Asks reach e other) :
    codebase.FlowsTo reach e other := by
  rw [Asks, typeOf_eq_flow hflow] at hask
  exact ⟨flow, hflow, Flow.source_of_mayAsk hask⟩

theorem FlowReaches.reaches {e other : Filed Expr} (h : codebase.FlowReaches reach e other) :
    codebase.Reaches reach e other :=
  Relation.ReflTransGen.mono (fun _ _ => FlowsTo.asks) e other h

/-- Where every expression passes types on, only such expressions are met. -/
theorem Closed.onlyFlows_of_every (hclosed : codebase.Closed)
    (h : codebase.every (codebase.passesOn reach) = true) {e : Filed Expr}
    (he : codebase.HasExpr e) : codebase.OnlyFlows reach e := by
  intro other hother
  have hexpr := hclosed.hasExpr_of_reaches he hother.reaches
  exact exists_flow_of_passesOn (test_of_every h hexpr)

/-- Where every expression passes types on, what it can be computed to ask for it passes on. -/
theorem Closed.flowsTo_of_isAsked (hclosed : codebase.Closed)
    (h : codebase.every (codebase.passesOn reach) = true) {e other : Filed Expr}
    (he : codebase.HasExpr e) (hother : codebase.HasExpr other)
    (hasked : codebase.isAsked reach e other = true) : codebase.FlowsTo reach e other := by
  obtain ⟨flow, hflow⟩ := exists_flow_of_passesOn (test_of_every h he)
  exact flowsTo_of_asks hflow (hclosed.asks_of_isAsked hasked he hother)

theorem Closed.finite_hasExpr (hclosed : codebase.Closed) : {e | codebase.HasExpr e}.Finite := by
  have hinj : Set.InjOn Expr.key {e | codebase.HasExpr e} := by
    intro a ha b hb hkey
    exact hclosed.eq_of_key ha hb hkey
  refine Set.Finite.of_finite_image ((codebase.finite_keysOff []).subset ?_) hinj
  rintro _ ⟨e, he, rfl⟩
  exact ⟨⟨e, he, rfl⟩, List.not_mem_nil⟩

theorem Closed.exists_incoming (hclosed : codebase.Closed) {e : Filed Expr}
    (he : codebase.HasExpr e) : ∃ tys, codebase.Incoming reach e tys := by
  classical
  -- each expression that is met gives finitely many types
  have hleaves : {ty | codebase.LeafType reach e ty}.Finite := by
    have hsources : ∀ leaf, {ty | ∃ flow, codebase.flow reach leaf = .ok (some flow) ∧
        Source.type ty ∈ flow.sources}.Finite := by
      intro leaf
      by_cases h : ∃ flow, codebase.flow reach leaf = .ok (some flow)
      · obtain ⟨flow, hflow⟩ := h
        have hinj : Function.Injective Source.type := fun _ _ => Source.type.inj
        apply (flow.sources.finite_toSet.preimage hinj.injOn).subset
        rintro ty ⟨flow', hflow', hmem⟩
        cases hflow.symm.trans hflow'
        exact hmem
      · apply Set.finite_empty.subset
        rintro ty ⟨flow, hflow, -⟩
        exact h ⟨flow, hflow⟩
    apply (hclosed.finite_hasExpr.biUnion fun leaf _ => hsources leaf).subset
    rintro ty ⟨leaf, flow, hway, hflow, hmem⟩
    have hleaf := hclosed.hasExpr_of_reaches he hway.reaches
    exact Set.mem_biUnion hleaf ⟨flow, hflow, hmem⟩
  have hall : {ty | codebase.LeafType reach e ty ∨
      (ty = .unknown ∧ codebase.MeetsCycle reach e)}.Finite := by
    apply (hleaves.union (Set.finite_singleton Ty.unknown)).subset
    rintro ty (hleaf | ⟨rfl, -⟩)
    · exact Or.inl hleaf
    · exact Or.inr rfl
  refine ⟨hall.toFinset.toList, ?_⟩
  intro ty
  simp

/-! ### The region of an expression -/

variable (codebase reach) in
/-- What an expression passes on, if it passes types on. -/
def flow? (e : Filed Expr) : Option Flow :=
  match codebase.flow reach e with
  | .ok flow => flow
  | .error _ => none

theorem flow?_eq_some_iff {e : Filed Expr} {flow : Flow} :
    codebase.flow? reach e = some flow ↔ codebase.flow reach e = .ok (some flow) := by
  unfold flow?
  split
  · next flow' hflow => simp [hflow]
  · next foreign hflow => simp [hflow]

/-- What is met from an expression that only meets flowing expressions. -/
def flowRegion (hclosed : codebase.Closed) (hproper : codebase.Proper) {e : Filed Expr}
    (he : codebase.HasExpr e) (honly : codebase.OnlyFlows reach e) : Region codebase reach where
  In := codebase.FlowReaches reach e
  flow := codebase.flow? reach
  hasExpr h := hclosed.hasExpr_of_reaches he h.reaches
  asks := by
    intro first other hfirst hask
    obtain ⟨flow, hflow⟩ := honly first hfirst
    exact hfirst.tail (flowsTo_of_asks hflow hask)
  typeOf_eq _ hflow := typeOf_eq_flow (flow?_eq_some_iff.1 hflow)
  proper := by
    intro first flow ty hfirst hflow hmem
    obtain ⟨found, hfound, hty⟩ :=
      hclosed.flow hproper reach (hclosed.hasExpr_of_reaches he hfirst.reaches)
    cases (flow?_eq_some_iff.1 hflow).symm.trans hfound
    exact hty flow rfl ty hmem
  steady := by
    intro first hfirst hnone
    obtain ⟨flow, hflow⟩ := honly first hfirst
    rw [flow?_eq_some_iff.2 hflow] at hnone
    cases hnone

end Codebase

namespace Region

variable {codebase : Codebase} {reach : Reach} {region : Region codebase reach}

variable (region) in
/-- The memo holds exact types of the expressions of a region. -/
def HoldsExact : Option Memo → Prop := Memo.Holds reach region.In region.Exact

theorem keeps_holdsExact (hclosed : codebase.Closed) : region.Keeps region.HoldsExact where
  entry hmemo he _ hget := hmemo _ _ he hget
  write hmemo he _ hexact := hmemo.insert hclosed region.hasExpr he hexact

/-- In a region where all expressions flow, whatever the memo of exact types. -/
theorem boundedWithin_of_flowing (hclosed : codebase.Closed)
    (hflow : ∀ e, region.In e → (region.flow e).isSome) (budget : Nat) :
    region.BoundedWithin region.HoldsExact budget := by
  induction budget with
  | zero => exact boundedWithin_zero
  | succ budget ih =>
    refine boundedWithin_succ hclosed (keeps_holdsExact hclosed) ?_ ih
    intro e memo he hnone _
    have hsome := hflow e he
    simp [hnone] at hsome

end Region

namespace Codebase

variable {codebase : Codebase} {reach : Reach} {e : Filed Expr}

section Yields

variable (hclosed : codebase.Closed) (hproper : codebase.Proper) (he : codebase.HasExpr e)
  (honly : codebase.OnlyFlows reach e)

theorem step_iff {first other : Filed Expr} (hfirst : codebase.FlowReaches reach e first) :
    (flowRegion hclosed hproper he honly).Step first other ↔
      codebase.FlowsTo reach first other := by
  constructor
  · rintro ⟨flow, hflow, hmem, -⟩
    exact ⟨flow, flow?_eq_some_iff.1 hflow, hmem⟩
  · rintro ⟨flow, hflow, hmem⟩
    obtain ⟨flow', hflow'⟩ := honly other (hfirst.tail ⟨flow, hflow, hmem⟩)
    refine ⟨flow, flow?_eq_some_iff.2 hflow, hmem, ?_⟩
    simp [flowRegion, flow?_eq_some_iff.2 hflow']

theorem reflTransGen_step_iff {first last : Filed Expr}
    (hfirst : codebase.FlowReaches reach e first) :
    Relation.ReflTransGen (flowRegion hclosed hproper he honly).Step first last ↔
      codebase.FlowReaches reach first last := by
  constructor <;> intro h
  · induction h with
    | refl => exact .refl
    | tail _ hstep ih =>
      exact ih.tail ((step_iff hclosed hproper he honly (hfirst.trans ih)).1 hstep)
  · induction h with
    | refl => exact .refl
    | tail hway hstep ih =>
      exact ih.tail ((step_iff hclosed hproper he honly (hfirst.trans hway)).2 hstep)

theorem transGen_step_iff {first last : Filed Expr} (hfirst : codebase.FlowReaches reach e first) :
    Relation.TransGen (flowRegion hclosed hproper he honly).Step first last ↔
      Relation.TransGen (codebase.FlowsTo reach) first last := by
  simp only [Relation.TransGen.tail'_iff, reflTransGen_step_iff hclosed hproper he honly hfirst]
  apply exists_congr
  intro middle
  apply and_congr_right
  intro hway
  exact step_iff hclosed hproper he honly (hfirst.trans hway)

/-- What is yielded is what comes in. -/
theorem yields_iff {tys : List Ty} (htys : codebase.Incoming reach e tys) {alt : Ty} :
    (flowRegion hclosed hproper he honly).Yields e alt ↔ ∃ ty ∈ tys, ty.Has alt := by
  have hway : ∀ {last}, Relation.ReflTransGen (flowRegion hclosed hproper he honly).Step e last ↔
      codebase.FlowReaches reach e last := reflTransGen_step_iff hclosed hproper he honly .refl
  constructor
  · intro h
    cases h with
    | leaf hlast hshows =>
      cases hshows with
      | type hflow hmem halt =>
        refine ⟨_, (htys _).2 (Or.inl ?_), halt⟩
        exact ⟨_, _, hway.1 hlast, flow?_eq_some_iff.1 hflow, hmem⟩
      | exit hflow hmem hsteady _ =>
        have hother := (hway.1 hlast).tail ⟨_, flow?_eq_some_iff.1 hflow, hmem⟩
        obtain ⟨flow, hflow'⟩ := honly _ hother
        cases (flow?_eq_some_iff.2 hflow').symm.trans hsteady
    | cycle hlast hcycle halt =>
      rw [transGen_step_iff hclosed hproper he honly (hway.1 hlast)] at hcycle
      refine ⟨.unknown, (htys _).2 (Or.inr ⟨rfl, _, hway.1 hlast, hcycle⟩), ?_⟩
      rw [Ty.has_iff_agree rfl]
      exact halt
  · rintro ⟨ty, hty, halt⟩
    rcases (htys ty).1 hty with ⟨leaf, flow, hleaf, hflow, hmem⟩ | ⟨rfl, other, hother, hcycle⟩
    · exact .leaf (hway.2 hleaf) (.type (flow?_eq_some_iff.2 hflow) hmem halt)
    · rw [← transGen_step_iff hclosed hproper he honly hother] at hcycle
      rw [Ty.has_iff_agree rfl] at halt
      exact .cycle (hway.2 hother) hcycle halt

/-- An exact type is the union of the types that come in. -/
theorem exact_agree {tys : List Ty} (htys : codebase.Incoming reach e tys) {ty : Ty}
    (h : (flowRegion hclosed hproper he honly).Exact e ty) : ty.Agree (.joinAll tys) := by
  have hall : ∀ ty' ∈ tys, ty'.isProper = true := by
    intro ty' hty'
    rcases (htys ty').1 hty' with ⟨leaf, flow, hleaf, hflow, hmem⟩ | ⟨rfl, -⟩
    · exact (flowRegion hclosed hproper he honly).proper hleaf (flow?_eq_some_iff.2 hflow) hmem
    · rfl
  have hhas : ∀ alt, ty.Has alt ↔ ∃ ty' ∈ tys, ty'.Has alt := by
    intro alt
    rw [h.has_iff, yields_iff hclosed hproper he honly htys]
  have hne : tys ≠ [] := by
    rintro rfl
    obtain ⟨alt, halt⟩ := Ty.exists_has h.proper
    simpa using (hhas alt).1 halt
  apply Ty.agree_of_has h.proper (Ty.isProper_joinAll hall)
  intro alt
  rw [hhas, Ty.has_joinAll hall hne]

theorem isSome_flow {first : Filed Expr} (hfirst : codebase.FlowReaches reach e first) :
    ((flowRegion hclosed hproper he honly).flow first).isSome := by
  obtain ⟨flow, hflow⟩ := honly first hfirst
  simp [flowRegion, flow?_eq_some_iff.2 hflow]

/-- From a memo of exact types, requests of their own find exact types and keep the memo so. -/
theorem probe_holdsExact (budget : Nat) {first : Filed Expr}
    (hfirst : codebase.FlowReaches reach e first) {memo : Option Memo}
    (hmemo : (flowRegion hclosed hproper he honly).HoldsExact memo) :
    (codebase.probe reach budget [] first memo).Meets
      (flowRegion hclosed hproper he honly).HoldsExact
      ((flowRegion hclosed hproper he honly).Exact first) := by
  have hflow : ∀ other, (flowRegion hclosed hproper he honly).In other →
      ((flowRegion hclosed hproper he honly).flow other).isSome := by
    intro other hother
    exact isSome_flow hclosed hproper he honly hother
  exact Region.probe_exact hclosed (Region.keeps_holdsExact hclosed)
    (Region.boundedWithin_of_flowing hclosed hflow budget) hfirst (hflow first hfirst) hmemo

theorem exact_inferFresh {memo : Option Memo}
    (hmemo : (flowRegion hclosed hproper he honly).HoldsExact memo) :
    ∃ ty, (codebase.inferFresh reach memo e).1 = .value ty ∧
      (flowRegion hclosed hproper he honly).Exact e ty := by
  obtain ⟨ty, hvalue⟩ := hclosed.inferFresh_value reach memo he
  refine ⟨ty, hvalue, ?_⟩
  rw [inferFresh_eq] at hvalue
  exact (probe_holdsExact hclosed hproper he honly codebase.budget .refl hmemo).of_value hvalue

theorem holdsExact_memoAfter {history : List Request}
    (hhistory : ∀ request ∈ history, codebase.HasExpr request.expr) :
    (flowRegion hclosed hproper he honly).HoldsExact (codebase.memoAfter history) := by
  refine hclosed.holds_memoAfter (flowRegion hclosed hproper he honly).hasExpr
    (flowRegion hclosed hproper he honly).asks ?_ hhistory
  intro budget first memo hfirst hmemo
  exact (probe_holdsExact hclosed hproper he honly budget hfirst hmemo).memo

end Yields

end Codebase

/-- An expression from which only literals, tables, names without a function, parentheses, operators
and calls that load modules are met has the union of the types that come in, without a memo and
with that of any history of requests. -/
theorem Project.infer_incoming (project : Project) (hmade : ∀ tree ∈ project.files, Made tree)
    (htypes : project.HasProperTypes) (reach : Reach) (e : Filed Expr)
    (he : project.codebase.HasExpr e) (honly : project.codebase.OnlyFlows reach e)
    (memo : Option Memo)
    (hmemo : memo = none ∨ ∃ history : List Request,
      (∀ request ∈ history, project.codebase.HasExpr request.expr) ∧
        memo = project.codebase.memoAfter history) :
    (∃ tys, project.codebase.Incoming reach e tys) ∧
      ∃ ty, (project.codebase.inferFresh reach memo e).1 = .value ty ∧
        ∀ tys, project.codebase.Incoming reach e tys → (ty == Ty.joinAll tys) = true := by
  have hclosed := Project.closed hmade
  have hproper := Project.proper hmade htypes
  refine ⟨hclosed.exists_incoming he, ?_⟩
  have hexact : (Codebase.flowRegion hclosed hproper he honly).HoldsExact memo := by
    rcases hmemo with rfl | ⟨history, hhistory, rfl⟩
    · intro first ty _ hget
      cases hget
    · exact Codebase.holdsExact_memoAfter hclosed hproper he honly hhistory
  obtain ⟨ty, hvalue, hty⟩ := Codebase.exact_inferFresh hclosed hproper he honly hexact
  refine ⟨ty, hvalue, ?_⟩
  intro tys htys
  rw [Ty.beq_eq]
  exact (Codebase.exact_agree hclosed hproper he honly htys hty).same

/-- Whether a type equal to this one is found. -/
def Outcome.isType (ty : Ty) : Outcome Ty → Bool
  | .value found => found == ty
  | _ => false

namespace Project

open Build

/-- A variable that begins with its own negation, or a sum under a conjunction, or what a module
returns: `local x = -x or (true and 1 + nil) or require "m"`. The module returns a string. -/
def mixture : Project :=
  (declaring (localStmt ["x"] [orElse
    (orElse (node .unaryExpr [spelled .minus, name "x"])
      (paren (node .binaryExpr [boolean true, blank, spelled .andKw, blank,
        node .binaryExpr [number "1", blank, spelled .plus, blank, nil]])))
    (stringCall (name "require") "m")]) (name "x")).withModule "m.lua"
      (sourceFile [returnStmt [string "s"]])

theorem made_mixture : ∀ tree ∈ mixture.files, Made tree := by
  have hnegated : Made (node .unaryExpr [spelled .minus, name "x"]) :=
    .unary (.name "x") (show unary .minus (name "x") = .ok _ from rfl)
  have hsum : Made (node .binaryExpr [number "1", blank, spelled .plus, blank, nil]) :=
    .binary (.number "1") .nil (show binary (number "1") .plus nil = .ok _ from rfl)
  have hboth : Made (node .binaryExpr [boolean true, blank, spelled .andKw, blank,
      node .binaryExpr [number "1", blank, spelled .plus, blank, nil]]) :=
    .binary (.boolean true) hsum (show binary (boolean true) .andKw _ = .ok _ from rfl)
  have hfirst := made_declaring (.localStmt ["x"] (made_one (made_orElse
    (made_orElse hnegated (.paren hboth)) (.stringCall (.name "require") "m")))) (.name "x")
  have hmodule : Made (sourceFile [returnStmt [string "s"]]) :=
    .sourceFile (made_one (.returnStmt (made_one (.rawString _))))
  exact List.forall_mem_append.2 ⟨hfirst, made_one hmodule⟩

/-- The members of the type of the variable: the sum is a number, the module a string if modules are
followed, and the variable is met again below its negation. -/
def membersMet : Reach → List Ty
  | .full => [.number, .string, .unknown]
  | .ownFile => [.number, .unknown]

/-- The initializer in either reach, after a request for the variable in it and one for itself that
may be in the other reach. -/
theorem mixture_infer_incoming :
    ∃ e inner, mixture.codebase.expr? ⟨0, 0⟩ = .ok (some e) ∧
      mixture.codebase.expr? ⟨0, 3⟩ = .ok (some inner) ∧
      ∀ reach other, mixture.codebase.OnlyFlows reach e ∧ mixture.codebase.MeetsCycle reach e ∧
        (∃ tys, mixture.codebase.Incoming reach e tys) ∧
        ∃ ty, (mixture.codebase.inferFresh reach (mixture.codebase.memoAfter
            [⟨other, e⟩, ⟨reach, inner⟩]) e).1 = .value ty ∧
          (ty == .union (membersMet reach)) = true ∧
          ∀ tys, mixture.codebase.Incoming reach e tys → (ty == Ty.joinAll tys) = true := by
  have hclosed := Project.closed made_mixture
  have htypes : mixture.HasProperTypes := ⟨nofun, nofun⟩
  have hflows : ∀ reach, mixture.codebase.every (mixture.codebase.passesOn reach) = true := by
    intro reach
    cases reach <;> decide +kernel
  -- the initializer, the alternative in it, the negation, the variable below it
  have htest : mixture.codebase.testAt ⟨0, 0⟩ (fun e =>
      mixture.codebase.testAt ⟨0, 1⟩ fun either =>
      mixture.codebase.testAt ⟨0, 2⟩ fun negated =>
      mixture.codebase.testAt ⟨0, 3⟩ fun inner =>
      [Reach.full, .ownFile].all fun reach =>
        mixture.codebase.isAsked reach e either &&
        mixture.codebase.isAsked reach either negated &&
        mixture.codebase.isAsked reach negated inner &&
        mixture.codebase.isAsked reach inner e &&
        [Reach.full, .ownFile].all fun other =>
          (mixture.codebase.inferFresh reach (mixture.codebase.memoAfter
            [⟨other, e⟩, ⟨reach, inner⟩]) e).1.isType (.union (membersMet reach))) = true := by
    decide +kernel
  obtain ⟨e, hexpr, he, htest⟩ := hclosed.exists_of_testAt htest
  obtain ⟨either, -, heither, htest⟩ := hclosed.exists_of_testAt htest
  obtain ⟨negated, -, hnegated, htest⟩ := hclosed.exists_of_testAt htest
  obtain ⟨inner, hinner, hin, htest⟩ := hclosed.exists_of_testAt htest
  refine ⟨e, inner, hexpr, hinner, ?_⟩
  intro reach other
  have hreach := List.all_eq_true.1 htest reach (by cases reach <;> simp)
  simp only [Bool.and_eq_true] at hreach
  obtain ⟨⟨⟨⟨hfirst, hsecond⟩, hthird⟩, hback⟩, hfound⟩ := hreach
  have honly := hclosed.onlyFlows_of_every (hflows reach) he
  have hedge : ∀ {first next}, mixture.codebase.HasExpr first → mixture.codebase.HasExpr next →
      mixture.codebase.isAsked reach first next = true →
      mixture.codebase.FlowsTo reach first next :=
    hclosed.flowsTo_of_isAsked (hflows reach)
  have hcycle : mixture.codebase.MeetsCycle reach e :=
    ⟨e, .refl, .head (hedge he heither hfirst) (.head (hedge heither hnegated hsecond)
      (.head (hedge hnegated hin hthird) (.single (hedge hin he hback))))⟩
  have hhistory : ∀ request ∈ ([⟨other, e⟩, ⟨reach, inner⟩] : List Request),
      mixture.codebase.HasExpr request.expr := by
    simp [hin, he]
  obtain ⟨hincoming, ty, hvalue, hunion⟩ := mixture.infer_incoming
    made_mixture htypes reach e he honly _ (Or.inr ⟨_, hhistory, rfl⟩)
  have htype := List.all_eq_true.1 hfound other (by cases other <;> simp)
  rw [hvalue] at htype
  exact ⟨honly, hcycle, hincoming, ty, hvalue, htype, hunion⟩

end Project

end LuaTypes
