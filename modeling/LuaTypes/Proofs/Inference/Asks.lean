import LuaTypes.Proofs.Inference.Fresh
import LuaTypes.Proofs.Inference.Termination
import Mathlib.Logic.Relation

/-!
# Which expressions an expression depends on

The rule of an expression may ask for other expressions, depending on the answers that it gets.
Only an expression that is asked for, directly or not, can be refused: below a path of which nothing
can be reached, an expression is inferred as by a request of its own.

* `Codebase.Asks`, `Codebase.Reaches`, `Codebase.OnCycle`: the graph of dependencies;
* `Codebase.probe_unreached`: what a path of which nothing can be reached does not change;
* `Codebase.typeAlone`: the type that a request of its own without a memo finds.
-/

namespace LuaTypes

/-- An inquiry may ask for an expression, whatever the answers to earlier questions. -/
inductive Inquiry.MayAsk {α : Type} (e : Filed Expr) : Inquiry α → Prop
  | now (next : Ty → Inquiry α) : MayAsk e (.ask e next)
  | later {other : Filed Expr} {next : Ty → Inquiry α} (ty : Ty) (h : MayAsk e (next ty)) :
    MayAsk e (.ask other next)

theorem Inquiry.Within.mayAsk {α : Type} {P : Filed Expr → Prop} {inquiry : Inquiry α}
    (h : inquiry.Within P) {e : Filed Expr} (he : inquiry.MayAsk e) : P e := by
  induction he with
  | now next => cases h with | ask hP _ => exact hP
  | later ty _ ih => cases h with | ask _ hnext => exact ih (hnext ty)

/-- The value of an inquiry whose questions are answered by a partial function. -/
def Inquiry.eval {α : Type} (answer : Filed Expr → Option Ty) : Inquiry α → Option α
  | .done value => some value
  | .fail _ => none
  | .ask e next => (answer e).bind fun ty => (next ty).eval answer

theorem Inquiry.eval_mono {α : Type} {answer answer' : Filed Expr → Option Ty}
    (h : ∀ e ty, answer e = some ty → answer' e = some ty) {inquiry : Inquiry α} {value : α}
    (heval : inquiry.eval answer = some value) : inquiry.eval answer' = some value := by
  induction inquiry with
  | done value => exact heval
  | fail foreign => exact heval
  | ask e next ih =>
    obtain ⟨ty, hty, hnext⟩ := Option.bind_eq_some_iff.1 heval
    exact Option.bind_eq_some_iff.2 ⟨ty, h e ty hty, ih ty hnext⟩

theorem Inquiry.eval_bind {α β : Type} (answer : Filed Expr → Option Ty) (inquiry : Inquiry α)
    (f : α → Inquiry β) :
    (inquiry >>= f).eval answer = (inquiry.eval answer).bind fun a => (f a).eval answer := by
  induction inquiry with
  | done value => rfl
  | fail foreign => rfl
  | ask e next ih =>
    simp only [ask_bind, eval, ih]
    cases answer e <;> rfl

@[simp] theorem Inquiry.eval_typeOf (answer : Filed Expr → Option Ty) (e : Filed Expr) :
    (typeOf e).eval answer = answer e := by
  simp only [typeOf, eval]
  cases answer e <;> rfl

/-- Without a memo, an inquiry comes to its value by the answers to its questions. -/
theorem Inquiry.eval_of_value {α : Type} {look : Looker} {answer : Filed Expr → Ty}
    (hmemo : ∀ e, (look e none).memo = none) {inquiry : Inquiry α}
    (h : ∀ e, inquiry.MayAsk e →
      (look e none).outcome = .value (answer e) ∨ (look e none).outcome = .exhausted)
    {value : α} (hvalue : (inquiry.probe look none).outcome = .value value) :
    inquiry.eval (fun e => some (answer e)) = some value := by
  induction inquiry with
  | done value =>
    cases hvalue
    rfl
  | fail foreign => cases hvalue
  | ask e next ih =>
    simp only [Inquiry.probe, hmemo] at hvalue
    rcases h e (.now next) with hout | hout
    · rw [hout] at hvalue
      exact ih (answer e) (fun e' he' => h e' (.later (answer e) he')) hvalue
    · rw [hout] at hvalue
      cases hvalue

namespace Codebase

variable (codebase : Codebase) (reach : Reach)

/-- The rule of the first expression may ask for the second. -/
def Asks (e other : Filed Expr) : Prop := (typeOf codebase reach e).MayAsk other

/-- The second expression may be asked for on the way to the type of the first, or is the first. -/
def Reaches : Filed Expr → Filed Expr → Prop := Relation.ReflTransGen (codebase.Asks reach)

/-- An expression may be asked for on the way to its own type. -/
def OnCycle (e : Filed Expr) : Prop := Relation.TransGen (codebase.Asks reach) e e

/-- The type that a request of its own finds without a memo. -/
def typeAlone (e : Filed Expr) : Ty :=
  match (codebase.inferFresh reach none e).1 with
  | .value ty => ty
  | _ => .unknown

variable {codebase reach}

theorem Closed.hasExpr_of_reaches (hclosed : codebase.Closed) {e other : Filed Expr}
    (he : codebase.HasExpr e) (h : codebase.Reaches reach e other) : codebase.HasExpr other := by
  induction h with
  | refl => exact he
  | tail _ hask ih => exact (hclosed.typeOf reach ih).mayAsk hask

/-! ### Paths that are out of reach -/

theorem rule_isFinalAt {look : Looker} {depth : Nat} {inquiry : Inquiry Ty}
    (h : ∀ e memo, inquiry.MayAsk e → (look e memo).isFinalAt depth = true) (memo : Option Memo) :
    (inquiry.probe look memo).isFinalAt depth = true := by
  induction inquiry generalizing memo with
  | done value => rfl
  | fail foreign => rfl
  | ask e next ih =>
    have hfirst := h e memo (.now next)
    simp only [Inquiry.probe]
    cases (look e memo).outcome with
    | value ty =>
      have hnext := ih ty (fun e' memo' he' => h e' memo' (.later ty he')) (look e memo).memo
      rw [Finding.isFinalAt_after, hnext, Bool.and_true]
      exact hfirst
    | failed foreign => exact hfirst
    | exhausted => exact hfirst

theorem isFinalAt_leave {found : Finding Ty} {depth : Nat} (h : found.isFinalAt depth = true)
    (key : MemoKey) (top : Nat) : (found.leave key top).isFinalAt depth = true := by
  obtain ⟨outcome, cut, memo⟩ := found
  cases cut with
  | none => rfl
  | some cut =>
    by_cases hcut : cut < top - 1
    · simpa [Finding.leave, Finding.isFinalAt, Option.filter, hcut] using h
    · simp [Finding.leave, Finding.isFinalAt, Option.filter, hcut]

/-- No refusal points below a part of the path that is out of reach. -/
theorem inside_isFinalAt (budget : Nat) (path below : List Key) (e : Filed Expr)
    (memo : Option Memo) (h : ∀ other, codebase.Reaches reach e other → Expr.key other ∉ below) :
    (codebase.inside reach budget (path ++ below) e memo).isFinalAt below.length = true := by
  induction budget generalizing path e memo with
  | zero => rfl
  | succ budget ih =>
    rw [inside_succ]
    refine rule_isFinalAt ?_ memo
    intro other memo' hask
    have hother : ∀ third, codebase.Reaches reach other third → Expr.key third ∉ below := by
      intro third hthird
      exact h third (.head hask hthird)
    rcases codebase.probe_cases reach budget (Expr.key e :: (path ++ below)) other memo' with
      ⟨ty, -, hprobe⟩ | ⟨depth, -, hdepth, hprobe⟩ | ⟨-, -, hprobe⟩ <;> rw [hprobe]
    · rfl
    · have hfar := depthOf_eq_none_iff.2 (hother other .refl)
      have happend := depthOf_append (Expr.key e :: path) below (Expr.key other)
      rw [List.cons_append, hdepth] at happend
      cases hnear : depthOf (Expr.key e :: path) (Expr.key other) with
      | none => simp [hnear, hfar] at happend
      | some near =>
        simp only [hnear, Option.some.injEq] at happend
        simp [Finding.isFinalAt, happend]
    · exact isFinalAt_leave (ih (Expr.key e :: path) other memo' hother) _ _

/-- A path of which nothing can be reached changes neither the type nor the memo. -/
theorem probe_unreached (budget : Nat) {below : List Key} {e : Filed Expr} (memo : Option Memo)
    (h : ∀ other, codebase.Reaches reach e other → Expr.key other ∉ below) :
    (codebase.probe reach budget below e memo).outcome =
        (codebase.probe reach budget [] e memo).outcome ∧
      (codebase.probe reach budget below e memo).memo =
        (codebase.probe reach budget [] e memo).memo := by
  cases hmemo : memo.bind (·.get? ⟨Expr.key e, reach⟩) with
  | some ty => simp [probe_of_known hmemo]
  | none => exact probe_of_final hmemo (h e .refl) (inside_isFinalAt budget [] below e memo h)

/-! ### Requests without a memo -/

variable (reach) in
/-- Without a memo, a request of its own finds the type alone. -/
theorem Closed.inferFresh_alone (hclosed : codebase.Closed) {e : Filed Expr}
    (he : codebase.HasExpr e) :
    (codebase.inferFresh reach none e).1 = .value (codebase.typeAlone reach e) := by
  obtain ⟨ty, hvalue⟩ := hclosed.inferFresh_value reach none he
  rw [typeAlone, hvalue]

variable (reach) in
theorem Closed.probe_budget_alone (hclosed : codebase.Closed) {e : Filed Expr}
    (he : codebase.HasExpr e) :
    (codebase.probe reach codebase.budget [] e none).outcome =
      .value (codebase.typeAlone reach e) := by
  have hvalue := hclosed.inferFresh_alone reach he
  rwa [inferFresh_eq] at hvalue

variable (reach) in
/-- Without a memo and below no path, an expression has its type alone, if the budget is enough. -/
theorem Closed.probe_alone (hclosed : codebase.Closed) {e : Filed Expr} (he : codebase.HasExpr e)
    (budget : Nat) :
    (codebase.probe reach budget [] e none).outcome = .value (codebase.typeAlone reach e) ∨
      (codebase.probe reach budget [] e none).outcome = .exhausted := by
  have hvalue := hclosed.probe_budget_alone reach he
  by_cases hout : (codebase.probe reach budget [] e none).outcome = .exhausted
  · exact Or.inr hout
  · left
    rcases Nat.le_total budget codebase.budget with hle | hle
    · rw [← probe_mono hle hout]
      exact hvalue
    · rw [probe_mono hle (by simp [hvalue])]
      exact hvalue

end Codebase

end LuaTypes
