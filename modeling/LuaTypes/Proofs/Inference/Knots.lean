import LuaTypes.Proofs.Inference.Alike
import LuaTypes.Proofs.Inference.Reachability

/-!
# Cycles that do not show

The memo may answer in the midst of a cycle where a request of its own would be refused. Where all
that stands on cycles passes types on, this does not show: the same alternatives come together. It
may show in whatever makes something of its parts, such as a function or a call, and wherever a
member is read of what comes out of a cycle, as types that agree may differ in their members.

* `Knot`, `Codebase.Knotted`: how cycles bear on an expression; `Codebase.IsTame`: from an
  expression on, cycles only pass types on;
* `Codebase.Fits`: what the memo may hold of a tame expression;
* `Codebase.probe_fits`: inference keeps it so and finds no other types;
* `Project.agree_of_isTame`: no history changes the type of a tame expression.
-/

namespace LuaTypes

/-- Related answers lead to a result that is related to the value by other answers. -/
theorem Inquiry.Alike.meets {α β : Type} {rel : Ty → Ty → Prop} {out : α → β → Prop}
    {inquiry : Inquiry α} {inquiry' : Inquiry β} (h : inquiry.Alike rel out inquiry')
    {Inv : Option Memo → Prop} {look : Looker} {answer : Filed Expr → Ty}
    (hlook : ∀ e memo, inquiry'.MayAsk e → Inv memo → (look e memo).Meets Inv (rel · (answer e)))
    {value : β} (heval : inquiry'.eval (fun e => some (answer e)) = some value) {memo : Option Memo}
    (hmemo : Inv memo) : (inquiry.probe look memo).Meets Inv (out · value) := by
  induction h generalizing memo with
  | done h =>
    cases heval
    exact ⟨hmemo, Or.inr ⟨_, rfl, h⟩⟩
  | fail foreign => cases heval
  | ask e _ ih =>
    apply meets_ask (hlook e memo (.now _) hmemo)
    intro ty memo' hrel hmemo'
    refine ih ty (answer e) hrel ?_ heval hmemo'
    intro e' memo'' he'
    exact hlook e' memo'' (.later _ he')

/-- How cycles bear on an expression. -/
inductive Knot where
  /-- It is on a cycle and passes types on. -/
  | flow
  /-- It is on a cycle and names a function. -/
  | function
  /-- It is on a cycle and is a function without a name. -/
  | closure
  /-- It is on a cycle and is a call. -/
  | call
  /-- It is on a cycle and reads a member. -/
  | member
  /-- It is on no cycle and reads a member of what comes out of one. -/
  | memberAbove
  deriving DecidableEq

namespace Codebase

variable (codebase : Codebase) (reach : Reach)

/-- An expression from which a cycle can be reached. -/
def ReachesCycle (e : Filed Expr) : Prop := ∃ other, codebase.Reaches reach e other ∧
  codebase.OnCycle reach other

/-- Cycles bear on an expression in this way. -/
inductive Knotted (e : Filed Expr) : Knot → Prop
  | flow {flow : Flow} (hcycle : codebase.OnCycle reach e)
    (hflow : codebase.flow reach e = .ok (some flow)) : Knotted e .flow
  | function (hcycle : codebase.OnCycle reach e) (hform : e.value.form = .name)
    (hflow : codebase.flow reach e = .ok none) : Knotted e .function
  | closure (hcycle : codebase.OnCycle reach e) (hform : e.value.form = .closure) :
    Knotted e .closure
  | call (hcycle : codebase.OnCycle reach e) (hform : e.value.form = .call)
    (hflow : codebase.flow reach e = .ok none) : Knotted e .call
  | member (hcycle : codebase.OnCycle reach e) (hform : e.value.form = .index) : Knotted e .member
  | memberAbove (hcycle : ¬codebase.OnCycle reach e) (hform : e.value.form = .index)
    (habove : codebase.ReachesCycle reach e) : Knotted e .memberAbove

/-- From an expression on, cycles only pass types on. -/
structure IsTame (e : Filed Expr) : Prop where
  hasExpr : codebase.HasExpr e
  knotted : ∀ other knot, codebase.Reaches reach e other → codebase.Knotted reach other knot →
    knot = .flow

variable {codebase reach}

theorem IsTame.asks (hclosed : codebase.Closed) {e other : Filed Expr}
    (he : codebase.IsTame reach e) (hask : codebase.Asks reach e other) :
    codebase.IsTame reach other := by
  constructor
  · exact (hclosed.typeOf reach he.hasExpr).mayAsk hask
  · intro third knot hthird
    exact he.knotted third knot (.head hask hthird)

/-- What passes no types on is a name, a closure, a call or reads a member. -/
theorem form_of_flow_none {e : Filed Expr} (h : codebase.flow reach e = .ok none) :
    e.value.form = .name ∨ e.value.form = .closure ∨ e.value.form = .call ∨
      e.value.form = .index := by
  unfold Codebase.flow at h
  cases hform : e.value.form <;> simp only [hform] at h ⊢ <;> try simp
  case literal => cases h
  case paren =>
    obtain ⟨part, -, h⟩ := reading_bind_eq_ok.1 h
    cases h
  case unary | binary =>
    obtain ⟨flow, -, h⟩ := reading_bind_eq_ok.1 h
    cases h
  case table => cases h

/-- What is on a cycle and tame passes types on. -/
theorem IsTame.exists_flow (hclosed : codebase.Closed) (hproper : codebase.Proper) {e : Filed Expr}
    (he : codebase.IsTame reach e) (hcycle : codebase.OnCycle reach e) :
    ∃ flow, codebase.flow reach e = .ok (some flow) := by
  obtain ⟨found, hfound, -⟩ := hclosed.flow hproper reach he.hasExpr
  cases found with
  | some flow => exact ⟨flow, hfound⟩
  | none =>
    exfalso
    have hknot := fun knot => he.knotted e knot .refl
    rcases form_of_flow_none hfound with hform | hform | hform | hform
    · cases hknot .function (.function hcycle hform hfound)
    · cases hknot .closure (.closure hcycle hform)
    · cases hknot .call (.call hcycle hform hfound)
    · cases hknot .member (.member hcycle hform)

/-- What reads a member and is tame reaches no cycle. -/
theorem IsTame.not_reachesCycle {e : Filed Expr} (he : codebase.IsTame reach e)
    (hform : e.value.form = .index) : ¬codebase.ReachesCycle reach e := by
  intro habove
  by_cases hcycle : codebase.OnCycle reach e
  · cases he.knotted e .member .refl (.member hcycle hform)
  · cases he.knotted e .memberAbove .refl (.memberAbove hcycle hform habove)

open Classical in
/-- Tame expressions; those on cycles pass types on. -/
noncomputable def tameRegion (hclosed : codebase.Closed) (hproper : codebase.Proper)
    (reach : Reach) : Region codebase reach where
  In := codebase.IsTame reach
  flow e := if codebase.OnCycle reach e then codebase.flow? reach e else none
  hasExpr he := he.hasExpr
  asks he := he.asks hclosed
  typeOf_eq _ hflow := by
    split at hflow
    · exact typeOf_eq_flow (flow?_eq_some_iff.1 hflow)
    · cases hflow
  proper he hflow hmem := by
    split at hflow
    · obtain ⟨found, hfound, hty⟩ := hclosed.flow hproper reach he.hasExpr
      cases (flow?_eq_some_iff.1 hflow).symm.trans hfound
      exact hty _ rfl _ hmem
    · cases hflow
  steady he hnone hcycle := by
    obtain ⟨flow, hflow⟩ := he.exists_flow hclosed hproper hcycle
    rw [if_pos hcycle, flow?_eq_some_iff.2 hflow] at hnone
    cases hnone

/-! ### Tame expressions by themselves -/

section Tame

variable (hclosed : codebase.Closed) (hproper : codebase.Proper)

theorem onCycle_of_flow {e : Filed Expr} (h : ((tameRegion hclosed hproper reach).flow e).isSome) :
    codebase.OnCycle reach e := by
  by_contra hcycle
  simp [tameRegion, hcycle] at h

/-- An expression off cycles is out of reach of whatever it asks for. -/
theorem Closed.key_not_mem_of_not_onCycle (hclosed : codebase.Closed) {e other : Filed Expr}
    (he : codebase.HasExpr e) (hcycle : ¬codebase.OnCycle reach e)
    (hask : codebase.Asks reach e other) :
    ∀ third, codebase.Reaches reach other third → Expr.key third ∉ [Expr.key e] := by
  intro third hthird hkey
  have hthird' := hclosed.hasExpr_of_reaches ((hclosed.typeOf reach he).mayAsk hask) hthird
  cases hclosed.eq_of_key hthird' he (List.mem_singleton.1 hkey)
  exact hcycle (Relation.TransGen.head' hask hthird)

/-- Without a memo, expressions off cycles have the type that their rule makes of the types that
others have alone. -/
theorem Closed.eval_typeAlone (hclosed : codebase.Closed) {e : Filed Expr} (he : codebase.HasExpr e)
    (hcycle : ¬codebase.OnCycle reach e) :
    (LuaTypes.typeOf codebase reach e).eval (fun other => some (codebase.typeAlone reach other)) =
      some (codebase.typeAlone reach e) := by
  have hinside := hclosed.probe_budget_alone reach he
  rw [probe_of_entered rfl List.not_mem_nil] at hinside
  change (codebase.inside reach codebase.budget [] e none).outcome = _ at hinside
  cases hbudget : codebase.budget with
  | zero =>
    rw [hbudget] at hinside
    cases hinside
  | succ budget =>
    rw [hbudget, inside_succ] at hinside
    refine Inquiry.eval_of_value (fun _ => probe_memo_none _ _ _) ?_ hinside
    intro other hask
    rw [(probe_unreached _ none (hclosed.key_not_mem_of_not_onCycle he hcycle hask)).1]
    exact hclosed.probe_alone reach ((hclosed.typeOf reach he).mayAsk hask) budget

/-- There is no memo. -/
def IsAbsent (memo : Option Memo) : Prop := memo = none

theorem keeps_isAbsent : (tameRegion hclosed hproper reach).Keeps IsAbsent where
  entry hmemo _ _ hget := by
    rw [hmemo] at hget
    cases hget
  write hmemo _ _ _ := by
    rw [hmemo]
    rfl

/-- Without a memo, bounded types are found of what passes types on. -/
theorem boundedWithin_alone (budget : Nat) :
    (tameRegion hclosed hproper reach).BoundedWithin IsAbsent budget := by
  induction budget with
  | zero => exact Region.boundedWithin_zero
  | succ budget ih =>
    refine Region.boundedWithin_succ hclosed (keeps_isAbsent hclosed hproper) ?_ ih
    intro e memo he _ hmemo
    cases hmemo
    constructor
    · exact probe_memo_none _ _ _
    · rcases hclosed.probe_alone reach he.hasExpr budget with hvalue | hexhausted
      · exact Or.inr ⟨_, hvalue, .refl (hclosed.isProper_typeAlone hproper he.hasExpr)⟩
      · exact Or.inl hexhausted

/-- What passes types on in a cycle has alone the alternatives that can be reached. -/
theorem exact_typeAlone {e : Filed Expr} (he : codebase.IsTame reach e)
    (hflow : ((tameRegion hclosed hproper reach).flow e).isSome) :
    (tameRegion hclosed hproper reach).Exact e (codebase.typeAlone reach e) :=
  (Region.probe_exact hclosed (keeps_isAbsent hclosed hproper)
    (boundedWithin_alone hclosed hproper codebase.budget) he hflow rfl).of_value
    (hclosed.probe_budget_alone reach he.hasExpr)

/-! ### Tame expressions with a memo -/

variable (codebase reach) in
/-- A type agrees with what an expression has alone, and is just that if no cycle can be reached. -/
structure Fits (e : Filed Expr) (ty : Ty) : Prop where
  agree : ty.Agree (codebase.typeAlone reach e)
  eq : ¬codebase.ReachesCycle reach e → ty = codebase.typeAlone reach e

variable (codebase reach) in
/-- The memo holds fitting types of tame expressions. -/
def HoldsFitting : Option Memo → Prop :=
  Memo.Holds reach (codebase.IsTame reach) (codebase.Fits reach)

variable (codebase reach) in
/-- Within a budget, requests of their own find fitting types of tame expressions. -/
def FitsWithin (budget : Nat) : Prop :=
  ∀ {e memo}, codebase.IsTame reach e → codebase.HoldsFitting reach memo →
    (codebase.probe reach budget [] e memo).Meets (codebase.HoldsFitting reach)
      (codebase.Fits reach e)

theorem fits_of_exact {e : Filed Expr} (he : codebase.IsTame reach e)
    (hflow : ((tameRegion hclosed hproper reach).flow e).isSome) {ty : Ty}
    (h : (tameRegion hclosed hproper reach).Exact e ty) : codebase.Fits reach e ty := by
  constructor
  · exact h.agree (exact_typeAlone hclosed hproper he hflow)
  · intro hplain
    exact absurd ⟨e, .refl, onCycle_of_flow hclosed hproper hflow⟩ hplain

theorem keeps_holdsFitting :
    (tameRegion hclosed hproper reach).Keeps (codebase.HoldsFitting reach) where
  entry hmemo he hflow hget :=
    (exact_typeAlone hclosed hproper he hflow).of_agree (hmemo _ _ he hget).agree
  write hmemo he hflow hexact :=
    hmemo.insert hclosed IsTame.hasExpr he (fits_of_exact hclosed hproper he hflow hexact)

include hclosed hproper in
/-- The rule of an expression off cycles finds a fitting type if its questions do. -/
theorem inside_fits {budget : Nat} (h : codebase.FitsWithin reach budget) {e : Filed Expr}
    (he : codebase.IsTame reach e) (hcycle : ¬codebase.OnCycle reach e) {memo : Option Memo}
    (hmemo : codebase.HoldsFitting reach memo) :
    (codebase.inside reach (budget + 1) [] e memo).Meets (codebase.HoldsFitting reach)
      (codebase.Fits reach e) := by
  have hlook : ∀ other memo, codebase.Asks reach e other → codebase.HoldsFitting reach memo →
      (codebase.probe reach budget [Expr.key e] other memo).Meets (codebase.HoldsFitting reach)
        (codebase.Fits reach other) := by
    intro other memo hask hmemo
    have hother := he.asks hclosed hask
    obtain ⟨hout, hmemo'⟩ := probe_unreached budget memo
      (hclosed.key_not_mem_of_not_onCycle he.hasExpr hcycle hask)
    exact (h hother hmemo).of_eq hout hmemo'
  have heval := hclosed.eval_typeAlone he.hasExpr hcycle
  rw [inside_succ]
  by_cases habove : codebase.ReachesCycle reach e
  · -- no member is read, so that agreement is respected
    have halike := typeOf_alike Ty.congruence_agree hclosed hproper reach he.hasExpr
      fun hform => absurd habove (he.not_reachesCycle hform)
    have hagrees : ∀ other memo, codebase.Asks reach e other → codebase.HoldsFitting reach memo →
        (codebase.probe reach budget [Expr.key e] other memo).Meets (codebase.HoldsFitting reach)
          (Ty.Agree · (codebase.typeAlone reach other)) := by
      intro other memo' hask hmemo'
      exact (hlook other memo' hask hmemo').mono fun ty hty => hty.agree
    apply (halike.meets hagrees heval hmemo).mono
    intro ty hty
    exact ⟨hty, fun hplain => absurd habove hplain⟩
  · -- what is asked for reaches no cycle either, so that its type is one and the same
    have halike := typeOf_alike Ty.congruence_identical hclosed hproper reach he.hasExpr
      fun _ => Ty.Identical.memberType
    have hsame : ∀ other memo, codebase.Asks reach e other → codebase.HoldsFitting reach memo →
        (codebase.probe reach budget [Expr.key e] other memo).Meets (codebase.HoldsFitting reach)
          (Ty.Identical · (codebase.typeAlone reach other)) := by
      intro other memo' hask hmemo'
      apply (hlook other memo' hask hmemo').mono
      intro ty hty
      refine ⟨hty.eq ?_, hty.agree.left⟩
      rintro ⟨third, hthird, hthirdCycle⟩
      exact habove ⟨third, .head hask hthird, hthirdCycle⟩
    apply (halike.meets hsame heval hmemo).mono
    intro ty hty
    constructor
    · rw [← hty.eq]
      exact .refl hty.proper
    · intro _
      exact hty.eq

/-- Where fitting types are found in the frames of tame expressions, they are found by requests of
their own. -/
theorem fitsWithin_of_inside {budget : Nat}
    (hbounded : (tameRegion hclosed hproper reach).BoundedWithin
      (codebase.HoldsFitting reach) budget)
    (hinside : ∀ {e memo}, codebase.IsTame reach e → ¬codebase.OnCycle reach e →
      codebase.HoldsFitting reach memo → (codebase.inside reach budget [] e memo).Meets
        (codebase.HoldsFitting reach) (codebase.Fits reach e)) :
    codebase.FitsWithin reach budget := by
  intro e memo he hmemo
  cases hflow : (tameRegion hclosed hproper reach).flow e with
  | some flow =>
    have hsome : ((tameRegion hclosed hproper reach).flow e).isSome := by simp [hflow]
    have hfound := Region.probe_exact hclosed (keeps_holdsFitting hclosed hproper) hbounded he hsome
      hmemo
    apply hfound.mono
    intro ty hty
    exact fits_of_exact hclosed hproper he hsome hty
  | none =>
    have hcycle := (tameRegion hclosed hproper reach).steady he hflow
    rcases codebase.probe_cases reach budget [] e memo with
      ⟨ty, hknown, hprobe⟩ | ⟨depth, -, hdepth, -⟩ | ⟨-, -, hprobe⟩
    · rw [hprobe]
      exact ⟨hmemo, Or.inr ⟨ty, rfl, hmemo e ty he hknown⟩⟩
    · cases hdepth
    · rw [hprobe]
      have hfits := hinside he hcycle hmemo
      apply hfits.leave
      intro ty hout _
      exact hfits.memo.insert hclosed IsTame.hasExpr he (hfits.of_value hout)

theorem fitsWithin (budget : Nat) : codebase.FitsWithin reach budget ∧
    (tameRegion hclosed hproper reach).BoundedWithin (codebase.HoldsFitting reach) budget := by
  induction budget with
  | zero =>
    have hbounded : (tameRegion hclosed hproper reach).BoundedWithin (codebase.HoldsFitting reach)
        0 := Region.boundedWithin_zero
    refine ⟨fitsWithin_of_inside hclosed hproper hbounded ?_, hbounded⟩
    intro e memo _ _ hmemo
    exact ⟨hmemo, Or.inl rfl⟩
  | succ budget ih =>
    obtain ⟨hfits, hbounded⟩ := ih
    have hbounded' : (tameRegion hclosed hproper reach).BoundedWithin (codebase.HoldsFitting reach)
        (budget + 1) := by
      refine Region.boundedWithin_succ hclosed (keeps_holdsFitting hclosed hproper) ?_ hbounded
      intro e memo he _ hmemo
      exact (hfits he hmemo).mono fun ty hty => hty.agree
    refine ⟨fitsWithin_of_inside hclosed hproper hbounded' ?_, hbounded'⟩
    intro e memo he hcycle hmemo
    exact inside_fits hclosed hproper hfits he hcycle hmemo

include hclosed hproper in
/-- Requests keep a memo of fitting types and find fitting types. -/
theorem probe_fits (budget : Nat) {e : Filed Expr} (he : codebase.IsTame reach e)
    {memo : Option Memo} (hmemo : codebase.HoldsFitting reach memo) :
    (codebase.probe reach budget [] e memo).Meets (codebase.HoldsFitting reach)
      (codebase.Fits reach e) :=
  (fitsWithin hclosed hproper budget).1 he hmemo

end Tame

end Codebase

/-- No history changes the type of a tame expression, up to agreement. -/
theorem Project.agree_of_isTame {project : Project} (hmade : ∀ tree ∈ project.files, Made tree)
    (htypes : project.HasProperTypes) {reach : Reach} {e : Filed Expr}
    (he : project.codebase.IsTame reach e) {history : List Request}
    (hhistory : ∀ request ∈ history, project.codebase.HasExpr request.expr) :
    ∃ ty, (project.codebase.inferFresh reach (project.codebase.memoAfter history) e).1 = .value ty ∧
      ty.Agree (project.codebase.typeAlone reach e) := by
  have hclosed := Project.closed hmade
  have hproper := Project.proper hmade htypes
  have hmemo : project.codebase.HoldsFitting reach (project.codebase.memoAfter history) := by
    refine hclosed.holds_memoAfter (fun he => he.hasExpr) (fun he hask => he.asks hclosed hask) ?_
      hhistory
    intro budget e memo he hmemo
    exact (Codebase.probe_fits hclosed hproper budget he hmemo).memo
  obtain ⟨ty, hvalue⟩ := hclosed.inferFresh_value reach (project.codebase.memoAfter history)
    he.hasExpr
  refine ⟨ty, hvalue, ?_⟩
  rw [Codebase.inferFresh_eq] at hvalue
  exact ((Codebase.probe_fits hclosed hproper _ he hmemo).of_value hvalue).agree

end LuaTypes
