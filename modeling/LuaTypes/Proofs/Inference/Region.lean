import LuaTypes.Proofs.Inference.Asks
import LuaTypes.Proofs.Ty.Alternatives

/-!
# Regions of flowing expressions

Some rules only pass types on: the type of a name from its initializer, that of a disjunction from
its operands. Where every expression on a cycle is of this sort, what it yields can be read off the
graph: the alternatives that come in along the way, and the unknown type if the way can be walked
for ever.

* `Flow`: what a rule passes on; `Region`: expressions of which those on cycles flow;
* `Region.Yields`: the alternatives that can be reached from an expression;
* `Region.Sees`: the alternatives that can be reached while no expression is entered twice;
* `Region.sees_iff_yields`: from no path on, these are the same.
-/

namespace LuaTypes

/-- Where a type comes from. -/
inductive Source where
  | type (ty : Ty)
  | expr (e : Filed Expr)

/-- What an expression passes on: the type of one source, or the union of two. -/
inductive Flow where
  | one (source : Source)
  | both (first second : Source)

/-- The type of a source. -/
def Source.inquiry : Source → Inquiry Ty
  | .type ty => .done ty
  | .expr e => .typeOf e

namespace Flow

/-- The sources whose types are passed on. -/
def sources : Flow → List Source
  | one source => [source]
  | both first second => [first, second]

/-- The union of the types of the sources. -/
def inquiry : Flow → Inquiry Ty
  | one source => source.inquiry
  | both first second => do
    let a ← first.inquiry
    let b ← second.inquiry
    return a.join b

theorem mayAsk_of_source {flow : Flow} {e : Filed Expr} (h : Source.expr e ∈ flow.sources) :
    flow.inquiry.MayAsk e := by
  cases flow with
  | one source =>
    cases List.mem_singleton.1 h
    exact .now _
  | both first second =>
    rcases List.mem_cons.1 h with rfl | h
    · exact .now _
    · cases List.mem_singleton.1 h
      cases first with
      | type ty => exact .now _
      | expr first => exact .later .unknown (.now _)

theorem source_of_mayAsk {flow : Flow} {e : Filed Expr} (h : flow.inquiry.MayAsk e) :
    Source.expr e ∈ flow.sources := by
  have hsource : ∀ {source : Source} {β : Type} {f : Ty → Inquiry β},
      (source.inquiry >>= f).MayAsk e → source = .expr e ∨ ∃ ty, (f ty).MayAsk e := by
    intro source β f h
    cases source with
    | type ty => exact Or.inr ⟨ty, h⟩
    | expr other =>
      cases h with
      | now _ => exact Or.inl rfl
      | later ty h => exact Or.inr ⟨ty, h⟩
  cases flow with
  | one source =>
    rw [inquiry, ← Inquiry.bind_done source.inquiry] at h
    rcases hsource h with rfl | ⟨ty, h⟩
    · exact List.mem_cons_self
    · cases h
  | both first second =>
    rcases hsource h with rfl | ⟨a, h⟩
    · exact List.mem_cons_self
    · rcases hsource h with rfl | ⟨b, h⟩
      · exact List.mem_cons_of_mem _ List.mem_cons_self
      · cases h

end Flow

/-- Expressions that ask for one another only. Those with a flow pass types on; the others are on no
cycle. -/
structure Region (codebase : Codebase) (reach : Reach) where
  In : Filed Expr → Prop
  flow : Filed Expr → Option Flow
  hasExpr : ∀ {e}, In e → codebase.HasExpr e
  asks : ∀ {e other}, In e → codebase.Asks reach e other → In other
  typeOf_eq : ∀ {e flow'}, In e → flow e = some flow' → typeOf codebase reach e = flow'.inquiry
  proper : ∀ {e flow' ty}, In e → flow e = some flow' → Source.type ty ∈ flow'.sources →
    ty.isProper = true
  steady : ∀ {e}, In e → flow e = none → ¬codebase.OnCycle reach e

namespace Region

variable {codebase : Codebase} {reach : Reach} (region : Region codebase reach)

/-- A flowing expression has another flowing one as a source. -/
def Step (e other : Filed Expr) : Prop :=
  ∃ flow, region.flow e = some flow ∧ .expr other ∈ flow.sources ∧ (region.flow other).isSome

/-- An alternative comes in at a flowing expression: from a type, or from an expression that is on
no cycle. -/
inductive Shows (e : Filed Expr) (alt : Ty) : Prop
  | type {flow : Flow} {ty : Ty} (hflow : region.flow e = some flow)
    (hmem : .type ty ∈ flow.sources) (halt : ty.Has alt)
  | exit {flow : Flow} {other : Filed Expr} (hflow : region.flow e = some flow)
    (hmem : .expr other ∈ flow.sources) (hsteady : region.flow other = none)
    (halt : (codebase.typeAlone reach other).Has alt)

/-- The alternatives that can be reached from a flowing expression, with the unknown type if a cycle
can be reached. -/
inductive Yields (e : Filed Expr) (alt : Ty) : Prop
  | leaf {last : Filed Expr} (hway : Relation.ReflTransGen region.Step e last)
    (hshows : region.Shows last alt)
  | cycle {last : Filed Expr} (hway : Relation.ReflTransGen region.Step e last)
    (hcycle : Relation.TransGen region.Step last last) (halt : Ty.unknown.Agree alt)

/-- The alternatives that can be reached while no expression is entered twice; what stands on the
path is unknown. -/
inductive Sees : List (Filed Expr) → Filed Expr → Ty → Prop
  | again {path : List (Filed Expr)} {e : Filed Expr} {alt : Ty} (hmem : e ∈ path)
    (halt : Ty.unknown.Agree alt) : Sees path e alt
  | leaf {path : List (Filed Expr)} {e : Filed Expr} {alt : Ty} (hnew : e ∉ path)
    (hshows : region.Shows e alt) : Sees path e alt
  | step {path : List (Filed Expr)} {e other : Filed Expr} {alt : Ty} (hnew : e ∉ path)
    (hstep : region.Step e other) (hsees : Sees (e :: path) other alt) : Sees path e alt

variable {region}

theorem Step.asks {e other : Filed Expr} (he : region.In e) (h : region.Step e other) :
    codebase.Asks reach e other := by
  obtain ⟨flow, hflow, hmem, -⟩ := h
  rw [Codebase.Asks, region.typeOf_eq he hflow]
  exact Flow.mayAsk_of_source hmem

theorem Yields.head {e other : Filed Expr} {alt : Ty} (hstep : region.Step e other)
    (h : region.Yields other alt) : region.Yields e alt := by
  cases h with
  | leaf hway hshows => exact .leaf (.head hstep hway) hshows
  | cycle hway hcycle halt => exact .cycle (.head hstep hway) hcycle halt

/-! ### What is seen is yielded -/

/-- The expressions of a path lead to an expression. -/
def LeadsTo (region : Region codebase reach) (path : List (Filed Expr)) (e : Filed Expr) : Prop :=
  ∀ p ∈ path, region.In p ∧ Relation.TransGen region.Step p e

theorem LeadsTo.nil (e : Filed Expr) : region.LeadsTo [] e := nofun

theorem LeadsTo.step {path : List (Filed Expr)} {e other : Filed Expr} (h : region.LeadsTo path e)
    (he : region.In e) (hstep : region.Step e other) : region.LeadsTo (e :: path) other := by
  intro p hp
  rcases List.mem_cons.1 hp with rfl | hp
  · exact ⟨he, .single hstep⟩
  · exact ⟨(h p hp).1, (h p hp).2.tail hstep⟩

theorem Sees.yields {path : List (Filed Expr)} {e : Filed Expr} {alt : Ty}
    (h : region.Sees path e alt) (he : region.In e) (hpath : region.LeadsTo path e) :
    region.Yields e alt := by
  induction h with
  | again hmem halt => exact .cycle .refl (hpath _ hmem).2 halt
  | leaf _ hshows => exact .leaf .refl hshows
  | step _ hstep _ ih =>
    have hother := region.asks he (hstep.asks he)
    exact (ih hother (hpath.step he hstep)).head hstep

/-! ### What is yielded is seen -/

/-- A way that stays off a path and enters no expression twice. -/
inductive Way (region : Region codebase reach) : List (Filed Expr) → Filed Expr → Filed Expr → Prop
  | here {path : List (Filed Expr)} {e : Filed Expr} (hnew : e ∉ path) : Way region path e e
  | step {path : List (Filed Expr)} {e other last : Filed Expr} (hnew : e ∉ path)
    (hstep : region.Step e other) (hway : Way region (e :: path) other last) :
    Way region path e last

theorem Way.mono {path fewer : List (Filed Expr)} {e last : Filed Expr} (h : region.Way path e last)
    (hsub : fewer ⊆ path) : region.Way fewer e last := by
  induction h generalizing fewer with
  | here hnew =>
    apply Way.here
    intro hmem
    exact hnew (hsub hmem)
  | step hnew hstep _ ih =>
    refine Way.step ?_ hstep (ih (List.cons_subset_cons _ hsub))
    intro hmem
    exact hnew (hsub hmem)

/-- A way stays off one more expression, or else goes on from there. -/
theorem Way.split {path : List (Filed Expr)} {e last : Filed Expr} (h : region.Way path e last)
    (via : Filed Expr) : region.Way (via :: path) e last ∨ region.Way path via last := by
  induction h with
  | @here path e hnew =>
    by_cases hvia : e = via
    · right
      rw [← hvia]
      exact .here hnew
    · left
      exact .here (by simp [hvia, hnew])
  | @step path e other last hnew hstep hway ih =>
    by_cases hvia : e = via
    · right
      rw [← hvia]
      exact .step hnew hstep hway
    · rcases ih with hoff | hon
      · left
        have hswap : e :: via :: path ⊆ via :: e :: path := (List.Perm.swap _ _ _).subset
        exact .step (by simp [hvia, hnew]) hstep (hoff.mono hswap)
      · right
        exact hon.mono (List.subset_cons_self _ _)

theorem exists_way {e last : Filed Expr} (h : Relation.ReflTransGen region.Step e last) :
    region.Way [] e last := by
  induction h using Relation.ReflTransGen.head_induction_on with
  | refl => exact .here (by simp)
  | @head e other hstep _ ih =>
    rcases ih.split e with hoff | hon
    · exact .step (by simp) hstep hoff
    · exact hon

theorem Way.sees {path : List (Filed Expr)} {e last : Filed Expr} (h : region.Way path e last)
    {alt : Ty} (hshows : region.Shows last alt) : region.Sees path e alt := by
  induction h with
  | here hnew => exact .leaf hnew hshows
  | step hnew hstep _ ih => exact .step hnew hstep (ih hshows)

/-- Whoever walks on to a cycle comes back to an expression of the path some time. -/
theorem sees_unknown (hclosed : codebase.Closed) {e last : Filed Expr} (he : region.In e)
    (hway : Relation.ReflTransGen region.Step e last)
    (hcycle : Relation.TransGen region.Step last last) {alt : Ty} (halt : Ty.unknown.Agree alt)
    {path : List (Filed Expr)} (hnodup : path.Nodup) (hpath : ∀ p ∈ path, codebase.HasExpr p) :
    region.Sees path e alt := by
  induction hleft : codebase.budget - path.length using Nat.strongRecOn generalizing e path with
  | _ left ih =>
    by_cases hmem : e ∈ path
    · exact .again hmem halt
    -- from every expression that leads to the cycle one can walk on, and not for longer than the
    -- number of expressions
    have hnext : ∃ other, region.Step e other ∧ Relation.ReflTransGen region.Step other last := by
      rcases hway.cases_head with rfl | ⟨other, hstep, hrest⟩
      · obtain ⟨other, hstep, hrest⟩ := Relation.TransGen.head'_iff.1 hcycle
        exact ⟨other, hstep, hrest⟩
      · exact ⟨other, hstep, hrest⟩
    obtain ⟨other, hstep, hrest⟩ := hnext
    have hnodup' : (e :: path).Nodup := List.nodup_cons.2 ⟨hmem, hnodup⟩
    have hpath' : ∀ p ∈ e :: path, codebase.HasExpr p := by
      intro p hp
      rcases List.mem_cons.1 hp with rfl | hp
      · exact region.hasExpr he
      · exact hpath p hp
    have hlength := hclosed.length_le hnodup' hpath'
    have hless : codebase.budget - (e :: path).length < left := by
      simp only [List.length_cons] at hlength ⊢
      omega
    exact .step hmem hstep
      (ih _ hless (region.asks he (hstep.asks he)) hrest hnodup' hpath' rfl)

/-- From no path on, what is seen is what is yielded. -/
theorem sees_iff_yields (hclosed : codebase.Closed) {e : Filed Expr} (he : region.In e) {alt : Ty} :
    region.Sees [] e alt ↔ region.Yields e alt := by
  constructor
  · intro h
    exact h.yields he (.nil e)
  · intro h
    cases h with
    | leaf hway hshows => exact (exists_way hway).sees hshows
    | cycle hway hcycle halt =>
      exact sees_unknown hclosed he hway hcycle halt List.nodup_nil (by simp)

end Region

end LuaTypes
