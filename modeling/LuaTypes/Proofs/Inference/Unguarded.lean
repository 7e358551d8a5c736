import LuaTypes.Proofs.Inference.Calls
import LuaTypes.Proofs.Inference.History
import LuaTypes.Proofs.Project.Closed

/-!
# Expressions outside of cycles

An expression whose inference meets no refusal has a type without any trail or memo: plain recursion
along the rules comes to an end on it. Cycles elsewhere do not matter to such an expression. A frame
in which it is looked for, directly or not, comes to its end later than the expression itself or
not at all, so no expression that it depends on is under way; and whatever the memo holds of the
expressions that it depends on is what plain recursion gives.

* `Codebase.unguarded`: plain recursion, within a number of steps; `Codebase.Settled`: it ends;
* `Codebase.unguarded_of_calls`: a request without a refusal finds what plain recursion gives;
* `Codebase.SettlesBefore`, `Codebase.SettlesLater`: which of two expressions settles first;
* `Memo.IsFaithful`: the memo holds of settled expressions what plain recursion gives;
  `Codebase.rule_induction`: what is asked on the way of a rule with such a memo;
  `Codebase.Closed.probe_faithful`: inference keeps it so;
* `Project.settled_immune`: no history changes what is found of such an expression.
-/

namespace LuaTypes

namespace Codebase

variable (codebase : Codebase) (reach : Reach)

/-- The type of an expression by plain recursion along the rules, if that takes no more steps. -/
def unguarded : Nat → Filed Expr → Option Ty
  | 0, _ => none
  | steps + 1, e => (typeOf codebase reach e).eval (unguarded steps)

/-- Plain recursion comes to an end on an expression. -/
def Settled (e : Filed Expr) (ty : Ty) : Prop := ∃ steps, codebase.unguarded reach steps e = some ty

variable {codebase reach}

theorem unguarded_succ {steps : Nat} {e : Filed Expr} {ty : Ty}
    (h : codebase.unguarded reach steps e = some ty) :
    codebase.unguarded reach (steps + 1) e = some ty := by
  induction steps generalizing e ty with
  | zero => cases h
  | succ steps ih => exact Inquiry.eval_mono (fun _ _ => ih) h

theorem unguarded_mono {steps more : Nat} (hle : steps ≤ more) {e : Filed Expr} {ty : Ty}
    (h : codebase.unguarded reach steps e = some ty) :
    codebase.unguarded reach more e = some ty := by
  induction hle with
  | refl => exact h
  | step _ ih => exact unguarded_succ ih

theorem unguarded_none_of_le {steps more : Nat} (hle : steps ≤ more) {e : Filed Expr}
    (h : codebase.unguarded reach more e = none) : codebase.unguarded reach steps e = none := by
  cases hsteps : codebase.unguarded reach steps e with
  | none => rfl
  | some ty => rw [unguarded_mono hle hsteps] at h; cases h

/-- The step at which plain recursion ends. -/
theorem Settled.exists_last {e : Filed Expr} {ty : Ty} (h : codebase.Settled reach e ty) :
    ∃ steps, codebase.unguarded reach steps e = none ∧
      codebase.unguarded reach (steps + 1) e = some ty := by
  obtain ⟨steps, h⟩ := h
  induction steps with
  | zero => cases h
  | succ steps ih =>
    cases hsteps : codebase.unguarded reach steps e with
    | none => exact ⟨steps, hsteps, h⟩
    | some ty' =>
      rw [unguarded_succ hsteps] at h
      exact ih (hsteps.trans h)

/-! ### Requests without a refusal -/

/-- The outcome of an expression is that of its frame. -/
theorem inferWithin_of_entered {budget : Nat} {e : Filed Expr} {state : State}
    (h : (Call.mk e state).isEntered = true) :
    (codebase.inferWithin budget e state).1 =
      (codebase.frameWithin budget e { state with trail := state.trail.push (Expr.key e) }).1 := by
  simp only [Call.isEntered, Call.isKnown, Trail.isUnderWay, Dict.contains, Bool.and_eq_true,
    Bool.not_eq_true', Option.isSome_eq_false_iff, Option.isNone_iff_eq_none] at h
  simp only [inferWithin_eq_visit, visit, Trail.enter, h.1, h.2]

/-- Without a memo, an expression that is not refused is entered. -/
theorem isEntered_of_not_refused {e : Filed Expr} {trail : Trail}
    (h : (Call.mk e ⟨trail, none⟩).isRefused = false) :
    (Call.mk e ⟨trail, none⟩).isEntered = true := by
  simpa [Call.isRefused, Call.isEntered, Call.isKnown, State.known?] using h

theorem rule_unguarded {budget : Nat}
    (h : ∀ e {trail : Trail}, trail.Consistent → trail.reach = reach →
      (∀ call ∈ codebase.callsWithin budget e ⟨trail, none⟩, call.isRefused = false) →
      ∀ ty, (codebase.inferWithin budget e ⟨trail, none⟩).1 = .value ty →
        codebase.unguarded reach budget e = some ty)
    {inquiry : Inquiry Ty} {trail : Trail} (htrail : trail.Consistent)
    (hreach : trail.reach = reach)
    (hcalls : ∀ call ∈ inquiry.calls (codebase.inferWithin budget) (codebase.callsWithin budget)
      ⟨trail, none⟩, call.isRefused = false) {ty : Ty}
    (hout : (inquiry.run (codebase.inferWithin budget) ⟨trail, none⟩).1 = .value ty) :
    inquiry.eval (codebase.unguarded reach budget) = some ty := by
  induction inquiry generalizing trail with
  | done value =>
    cases hout
    rfl
  | fail foreign => cases hout
  | ask e next ih =>
    simp only [Inquiry.calls, Inquiry.run] at hcalls hout
    have hleft : ∀ call ∈ codebase.callsWithin budget e ⟨trail, none⟩, call.isRefused = false := by
      intro call hcall
      exact hcalls call (List.mem_append_left _ hcall)
    have hfirst := h e htrail hreach hleft
    have hstate := codebase.inferWithin_eq budget htrail e none
    rw [hstate] at hfirst hcalls hout
    simp only [Finding.onto, probe_memo_none] at hfirst hcalls hout
    cases hvalue : (codebase.probe trail.reach budget trail.keys e none).outcome with
    | value tyo =>
      rw [hvalue] at hcalls hout
      refine Option.bind_eq_some_iff.2 ⟨tyo, hfirst tyo hvalue, ?_⟩
      refine ih tyo (htrail.cutBy _) (by simpa using hreach) ?_ hout
      intro call hcall
      exact hcalls call (List.mem_append_right _ hcall)
    | failed foreign => rw [hvalue] at hout; cases hout
    | exhausted => rw [hvalue] at hout; cases hout

/-- A request without a refusal finds what plain recursion gives. -/
theorem unguarded_of_calls {budget : Nat} {e : Filed Expr} {trail : Trail}
    (htrail : trail.Consistent)
    (hcalls : ∀ call ∈ codebase.callsWithin budget e ⟨trail, none⟩, call.isRefused = false)
    {ty : Ty} (hout : (codebase.inferWithin budget e ⟨trail, none⟩).1 = .value ty) :
    codebase.unguarded trail.reach budget e = some ty := by
  induction budget generalizing e trail ty with
  | zero =>
    have hentered := isEntered_of_not_refused (hcalls _ (codebase.self_mem_callsWithin _ _ _))
    rw [inferWithin_of_entered hentered] at hout
    cases hout
  | succ budget ih =>
    have hentered := isEntered_of_not_refused (hcalls _ (codebase.self_mem_callsWithin _ _ _))
    have hnew := htrail.get?_active_eq_none_iff.2 ((isEntered_iff htrail).1 hentered).2
    rw [inferWithin_of_entered hentered] at hout
    simp only [callsWithin, hentered, if_true] at hcalls
    refine rule_unguarded ?_ (htrail.push hnew) rfl ?_ hout
    · intro e' trail' htrail' hreach hcalls' ty' hout'
      rw [← hreach]
      exact ih htrail' hcalls' hout'
    · intro call hcall
      exact hcalls call (List.mem_cons_of_mem _ hcall)

end Codebase

/-! ### Faithful memos -/

/-- The memo holds of settled expressions what plain recursion gives. -/
def Memo.IsFaithful (codebase : Codebase) (memo : Option Memo) : Prop :=
  ∀ e reach ty ty', codebase.HasExpr e → codebase.Settled reach e ty →
    memo.bind (·.get? ⟨Expr.key e, reach⟩) = some ty' → ty' = ty

theorem Memo.isFaithful_empty (codebase : Codebase) : IsFaithful codebase (some .empty) := by
  intro e reach ty ty' _ _ hget
  simp at hget

namespace Codebase

variable {codebase : Codebase} {reach : Reach}

variable (codebase reach) in
/-- Whenever an expression is settled, another one was settled a step earlier. -/
def SettlesBefore (other e : Filed Expr) : Prop :=
  ∀ steps, codebase.unguarded reach steps other = none →
    codebase.unguarded reach (steps + 1) e = none

theorem SettlesBefore.settled {other e : Filed Expr} (h : codebase.SettlesBefore reach other e)
    {ty : Ty} (hsettled : codebase.Settled reach e ty) :
    ∃ tyo, codebase.Settled reach other tyo := by
  obtain ⟨steps, -, hlast⟩ := hsettled.exists_last
  cases hother : codebase.unguarded reach steps other with
  | none => rw [h steps hother] at hlast; cases hlast
  | some tyo => exact ⟨tyo, steps, hother⟩

variable (codebase reach) in
/-- What stands on a path is settled later than an expression, or never. -/
def SettlesLater (path : List Key) (e : Filed Expr) : Prop :=
  ∀ steps, codebase.unguarded reach steps e = none →
    ∀ other, codebase.HasExpr other → Expr.key other ∈ path →
      codebase.unguarded reach (steps + 1) other = none

theorem SettlesLater.not_mem {path : List Key} {e : Filed Expr} {ty : Ty}
    (h : codebase.SettlesLater reach path e) (he : codebase.HasExpr e)
    (hsettled : codebase.Settled reach e ty) : Expr.key e ∉ path := by
  intro hmem
  obtain ⟨steps, hnone, hsome⟩ := hsettled.exists_last
  rw [h steps hnone e he hmem] at hsome
  cases hsome

theorem settlesLater_nil (e : Filed Expr) : codebase.SettlesLater reach [] e := by
  intro steps _ other _ hmem
  cases hmem

/-- Whatever an expression is asked for settles before that one, if that one does. -/
theorem SettlesLater.cons (hclosed : codebase.Closed) {path : List Key} {e other : Filed Expr}
    (h : codebase.SettlesLater reach path e) (he : codebase.HasExpr e)
    (hbefore : codebase.SettlesBefore reach other e) :
    codebase.SettlesLater reach (Expr.key e :: path) other := by
  intro steps hnone third hthird hkey
  rcases List.mem_cons.1 hkey with hkey | hkey
  · rw [hclosed.eq_of_key hthird he hkey]
    exact hbefore steps hnone
  · exact unguarded_none_of_le (by omega) (h (steps + 1) (hbefore steps hnone) third hthird hkey)

variable (codebase reach) in
/-- A finding with a faithful memo that says of a settled expression what plain recursion gives. -/
structure Finding.Faithful (e : Filed Expr) (found : Finding Ty) : Prop where
  memo : Memo.IsFaithful codebase found.memo
  outcome : ∀ ty, codebase.Settled reach e ty →
    found.outcome = .value ty ∨ found.outcome = .exhausted

/-- What holds of the end of a rule, and of each of its questions if it holds of what is left of the
rule after the answer, holds of the rule: with faithful answers every question settles before the
expression does, and what is left still gives the expression's type. -/
theorem rule_induction {e : Filed Expr} {look : Looker} {motive : Inquiry Ty → Option Memo → Prop}
    (hlook : ∀ other memo, codebase.HasExpr other → Memo.IsFaithful codebase memo →
      codebase.SettlesBefore reach other e →
      Finding.Faithful codebase reach other (look other memo))
    (hdone : ∀ value memo, Memo.IsFaithful codebase memo →
      (∀ ty, codebase.Settled reach e ty → ty = value) → motive (.done value) memo)
    (hask : ∀ other next memo, codebase.HasExpr other → Memo.IsFaithful codebase memo →
      codebase.SettlesBefore reach other e →
      (∀ ty, (look other memo).outcome = .value ty → motive (next ty) (look other memo).memo) →
      motive (.ask other next) memo)
    {inquiry : Inquiry Ty} (hwithin : inquiry.Within codebase.HasExpr)
    (hrest : ∀ steps ty, codebase.unguarded reach (steps + 1) e = some ty →
      inquiry.eval (codebase.unguarded reach steps) = some ty)
    {memo : Option Memo} (hmemo : Memo.IsFaithful codebase memo) : motive inquiry memo := by
  induction hwithin generalizing memo with
  | done value =>
    refine hdone value memo hmemo fun ty hsettled => ?_
    obtain ⟨steps, -, hlast⟩ := hsettled.exists_last
    cases hrest steps ty hlast
    rfl
  | @ask other next hother _ ih =>
    -- once the expression settles, so has the question that is asked first
    have hfirst : ∀ steps ty, codebase.unguarded reach (steps + 1) e = some ty →
        ∃ tyo, codebase.unguarded reach steps other = some tyo ∧
          (next tyo).eval (codebase.unguarded reach steps) = some ty :=
      fun steps ty h => Option.bind_eq_some_iff.1 (hrest steps ty h)
    have hbefore : codebase.SettlesBefore reach other e := by
      intro steps hnone
      cases he : codebase.unguarded reach (steps + 1) e with
      | none => rfl
      | some ty =>
        obtain ⟨tyo, hsome, -⟩ := hfirst steps ty he
        rw [hsome] at hnone
        cases hnone
    have hfound := hlook other memo hother hmemo hbefore
    refine hask other next memo hother hmemo hbefore fun tyo hout => ih tyo ?_ hfound.memo
    intro steps ty h
    obtain ⟨tyo', hsome, heval⟩ := hfirst steps ty h
    rcases hfound.outcome tyo' ⟨steps, hsome⟩ with hvalue | hexhausted
    · rw [hout] at hvalue
      cases hvalue
      exact heval
    · rw [hout] at hexhausted
      cases hexhausted

/-- The rule of an expression finds what plain recursion gives if its questions do; `inquiry` is
what is left of the rule. -/
theorem rule_faithful {e : Filed Expr} {look : Looker}
    (hlook : ∀ other memo, codebase.HasExpr other → Memo.IsFaithful codebase memo →
      codebase.SettlesBefore reach other e →
      Finding.Faithful codebase reach other (look other memo))
    {inquiry : Inquiry Ty} (hwithin : inquiry.Within codebase.HasExpr)
    (hrest : ∀ steps ty, codebase.unguarded reach (steps + 1) e = some ty →
      inquiry.eval (codebase.unguarded reach steps) = some ty)
    {memo : Option Memo} (hmemo : Memo.IsFaithful codebase memo) :
    Finding.Faithful codebase reach e (inquiry.probe look memo) := by
  refine rule_induction (motive := fun inquiry memo =>
    Finding.Faithful codebase reach e (inquiry.probe look memo)) hlook ?_ ?_ hwithin hrest hmemo
  · intro value memo hmemo hvalue
    refine ⟨hmemo, fun ty hsettled => Or.inl ?_⟩
    rw [hvalue ty hsettled]
    rfl
  · intro other next memo hother hmemo hbefore hnext
    have hfound := hlook other memo hother hmemo hbefore
    simp only [Inquiry.probe]
    cases hout : (look other memo).outcome with
    | value tyo => exact ⟨(hnext tyo hout).memo, (hnext tyo hout).outcome⟩
    | failed foreign =>
      refine ⟨hfound.memo, fun ty hsettled => ?_⟩
      obtain ⟨tyo, hsettledOther⟩ := hbefore.settled hsettled
      rcases hfound.outcome tyo hsettledOther with h | h <;> rw [hout] at h <;> cases h
    | exhausted => exact ⟨hfound.memo, fun _ _ => Or.inr rfl⟩

/-- Leaving the frame of an expression keeps a memo faithful. -/
theorem leave_faithful (hclosed : codebase.Closed) {e : Filed Expr} (he : codebase.HasExpr e)
    {found : Finding Ty} (h : Finding.Faithful codebase reach e found) (depth : Nat) :
    Finding.Faithful codebase reach e (found.leave ⟨Expr.key e, reach⟩ depth) := by
  refine ⟨Finding.leave_memo_kept (Memo.IsFaithful codebase) h.memo ?_, h.outcome⟩
  intro ty hout _ other reach' ty' ty'' hother hsettled hget
  rcases Memo.entry_of_insert hget with ⟨hkey, rfl⟩ | hget
  · obtain ⟨hexpr, rfl⟩ := MemoKey.mk.inj hkey
    cases hclosed.eq_of_key hother he hexpr
    rcases h.outcome ty' hsettled with hvalue | hexhausted
    · rw [hout] at hvalue
      exact Outcome.value.inj hvalue
    · rw [hout] at hexhausted
      cases hexhausted
  · exact h.memo other reach' ty' ty'' hother hsettled hget

/-- What is found in a frame on top of a path is found below the path. -/
theorem probe_faithful_of_inside (hclosed : codebase.Closed) {budget : Nat} {path : List Key}
    {e : Filed Expr} (he : codebase.HasExpr e) (hpath : codebase.SettlesLater reach path e)
    {memo : Option Memo} (hmemo : Memo.IsFaithful codebase memo)
    (hinside : Finding.Faithful codebase reach e (codebase.inside reach budget path e memo)) :
    Finding.Faithful codebase reach e (codebase.probe reach budget path e memo) := by
  rcases codebase.probe_cases reach budget path e memo with
    ⟨ty', hknown, hprobe⟩ | ⟨depth, -, hdepth, hprobe⟩ | ⟨-, -, hprobe⟩ <;> rw [hprobe]
  · constructor
    · exact hmemo
    · intro ty hsettled
      rw [hmemo e reach ty ty' he hsettled hknown]
      exact Or.inl rfl
  · constructor
    · exact hmemo
    · intro ty hsettled
      rw [depthOf_eq_none_iff.2 (hpath.not_mem he hsettled)] at hdepth
      cases hdepth
  · exact leave_faithful hclosed he hinside path.length

/-- Inference keeps a memo faithful and finds what plain recursion gives. -/
theorem probe_faithful (hclosed : codebase.Closed) {budget : Nat} {path : List Key} {e : Filed Expr}
    (he : codebase.HasExpr e) (hpath : codebase.SettlesLater reach path e) {memo : Option Memo}
    (hmemo : Memo.IsFaithful codebase memo) :
    Finding.Faithful codebase reach e (codebase.probe reach budget path e memo) := by
  apply probe_faithful_of_inside hclosed he hpath hmemo
  induction budget generalizing path e memo with
  | zero => exact ⟨hmemo, fun _ _ => Or.inr rfl⟩
  | succ budget ih =>
    rw [inside_succ]
    refine rule_faithful ?_ (hclosed.typeOf reach he) (fun steps ty h => h) hmemo
    intro other memo' hother hmemo' hbefore
    have hlater := hpath.cons hclosed he hbefore
    exact probe_faithful_of_inside hclosed hother hlater hmemo' (ih hother hlater hmemo')

/-- In its frame an expression is answered faithfully whatever settles before it. -/
theorem faithful_inside (hclosed : codebase.Closed) {path : List Key} {e : Filed Expr}
    (he : codebase.HasExpr e) (hpath : codebase.SettlesLater reach path e) (budget : Nat)
    (other : Filed Expr) (memo : Option Memo) (hother : codebase.HasExpr other)
    (hmemo : Memo.IsFaithful codebase memo) (hbefore : codebase.SettlesBefore reach other e) :
    Finding.Faithful codebase reach other
      (codebase.probe reach budget (Expr.key e :: path) other memo) :=
  probe_faithful hclosed hother (hpath.cons hclosed he hbefore) hmemo

/-! ### Histories of requests -/

theorem faithful_memoAfter (hclosed : codebase.Closed) {history : List Request}
    (hhistory : ∀ request ∈ history, codebase.HasExpr request.expr) :
    Memo.IsFaithful codebase (codebase.memoAfter history) := by
  apply memoAfter_kept
  · exact Memo.isFaithful_empty codebase
  · intro request hrequest memo hmemo
    rw [inferFresh_eq]
    exact (probe_faithful hclosed (hhistory request hrequest) (settlesLater_nil _) hmemo).memo

/-- No history changes what is found of a settled expression. -/
theorem inferFresh_of_settled (hclosed : codebase.Closed) {e : Filed Expr} (he : codebase.HasExpr e)
    {ty : Ty} (hsettled : codebase.Settled reach e ty) {memo : Option Memo}
    (hmemo : Memo.IsFaithful codebase memo) : (codebase.inferFresh reach memo e).1 = .value ty := by
  obtain ⟨ty', hvalue⟩ := hclosed.inferFresh_value reach memo he
  rw [inferFresh_eq] at hvalue ⊢
  rcases (probe_faithful hclosed he (settlesLater_nil _) hmemo).outcome ty hsettled with h | h
  · exact h
  · simp only [Finding.onto] at hvalue
    rw [h] at hvalue
    cases hvalue

end Codebase

/-- An expression whose own inference, without a memo, meets no refusal has the same type after
every history of requests. -/
theorem Project.settled_immune (project : Project) (hmade : ∀ tree ∈ project.files, Made tree)
    (reach : Reach) (e : Filed Expr) (he : project.codebase.HasExpr e)
    (hcalls : ∀ call ∈ project.codebase.calls e (.fresh reach none), call.isRefused = false)
    (history : List Request)
    (hhistory : ∀ request ∈ history, project.codebase.HasExpr request.expr) :
    ∃ ty, (project.codebase.inferFresh reach none e).1 = .value ty ∧
      (project.codebase.inferFresh reach (project.codebase.memoAfter history) e).1 = .value ty := by
  have hclosed := Project.closed hmade
  obtain ⟨ty, hvalue⟩ := hclosed.inferFresh_value reach none he
  have hsettled : project.codebase.Settled reach e ty :=
    ⟨_, Codebase.unguarded_of_calls (Trail.consistent_fresh reach) hcalls hvalue⟩
  exact ⟨ty, hvalue, Codebase.inferFresh_of_settled hclosed he hsettled
    (Codebase.faithful_memoAfter hclosed hhistory)⟩

/-- A number in the initializer of a variable that begins with itself is immune to requests for the
initializer. -/
theorem Project.selfOrNumber_settled_immune :
    ∃ e around, selfOrNumber.codebase.expr? ⟨0, 2⟩ = .ok (some e) ∧
      selfOrNumber.codebase.expr? ⟨0, 0⟩ = .ok (some around) ∧
      (∀ call ∈ selfOrNumber.codebase.calls e (.fresh .full none), call.isRefused = false) ∧
      ∃ ty, (selfOrNumber.codebase.inferFresh .full none e).1 = .value ty ∧
        (selfOrNumber.codebase.inferFresh .full
          (selfOrNumber.codebase.memoAfter [⟨.full, around⟩]) e).1 = .value ty := by
  have htest : selfOrNumber.codebase.testAt ⟨0, 2⟩ (fun e => selfOrNumber.codebase.testAt ⟨0, 0⟩
      fun _ => (selfOrNumber.codebase.calls e (.fresh .full none)).all (!·.isRefused)) = true := by
    decide +kernel
  have hclosed := Project.closed made_selfOrNumber
  obtain ⟨e, hexpr, he, htest⟩ := hclosed.exists_of_testAt htest
  obtain ⟨around, haround, hin, htest⟩ := hclosed.exists_of_testAt htest
  have hcalls := Call.unrefused_of_all htest
  exact ⟨e, around, hexpr, haround, hcalls, selfOrNumber.settled_immune made_selfOrNumber .full e he
    hcalls [⟨.full, around⟩] (by simpa using hin)⟩

end LuaTypes
