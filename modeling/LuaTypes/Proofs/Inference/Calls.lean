import LuaTypes.Proofs.Inference.Fresh
import LuaTypes.Proofs.Inference.Termination
import LuaTypes.Proofs.Project.Testing

/-!
# The calls of a request

A request infers one expression after the other, each in the state that the ones before it left
behind. The log of these calls says where the entries of the memo come from: whatever a request
writes is what a request of its own would have found with the memo of the moment in which the
expression was entered.

* `Codebase.calls`: the log of a request;
* `Codebase.frameOf`, `Codebase.isFinalAtExit`: what goes on in the frame of an expression;
* `Codebase.final_is_fresh`: answers that are final on exit, and the entries of the memo, are those
  of requests of their own.
-/

namespace LuaTypes

/-- An expression that is inferred, with the state in which that begins. -/
structure Call where
  expr : Filed Expr
  state : State

namespace Call

/-- Whether the memo holds the expression's type. -/
def isKnown (call : Call) : Bool := (call.state.known? (Expr.key call.expr)).isSome

/-- Whether the trail refuses the expression. -/
def isRefused (call : Call) : Bool :=
  !call.isKnown && call.state.trail.isUnderWay (Expr.key call.expr)

/-- Whether the expression gets a frame of its own. -/
def isEntered (call : Call) : Bool :=
  !call.isKnown && !call.state.trail.isUnderWay (Expr.key call.expr)

/-- The key under which the memo keeps the expression's type. -/
def memoKey (call : Call) : MemoKey := ⟨Expr.key call.expr, call.state.trail.reach⟩

theorem unrefused_of_all {calls : List Call} (h : calls.all (!·.isRefused) = true) :
    ∀ call ∈ calls, call.isRefused = false := by
  simpa using h

end Call

/-- The calls that an inquiry leads to; `log` gives those of each question. -/
def Inquiry.calls {α : Type} (find : Finder) (log : Filed Expr → State → List Call) :
    Inquiry α → State → List Call
  | .done _, _ => []
  | .fail _, _ => []
  | .ask e next, state =>
    log e state ++
      match (find e state).1 with
      | .value ty => (next ty).calls find log (find e state).2
      | _ => []

namespace Codebase

variable (codebase : Codebase)

/-- The calls that inferring an expression within a budget leads to, itself the first. -/
def callsWithin : Nat → Filed Expr → State → List Call
  | 0, e, state => [⟨e, state⟩]
  | budget + 1, e, state =>
    ⟨e, state⟩ ::
      if (Call.mk e state).isEntered then
        (typeOf codebase state.trail.reach e).calls (codebase.inferWithin budget)
          (callsWithin budget) { state with trail := state.trail.push (Expr.key e) }
      else []

/-- The calls that inferring an expression leads to, itself the first. -/
def calls (e : Filed Expr) (state : State) : List Call :=
  codebase.callsWithin codebase.budget e state

/-- What goes on in the frame of an expression, which lies on top of the trail. -/
def frameWithin : Nat → Finder
  | 0 => fun _ state => (.exhausted, state)
  | budget + 1 => codebase.byRule (codebase.inferWithin budget)

/-- How inferring an expression in a frame of its own ends, before the frame is left. -/
def frameOf (e : Filed Expr) (state : State) : Outcome Ty × State :=
  codebase.frameWithin codebase.budget e { state with trail := state.trail.push (Expr.key e) }

/-- Whether the frame of an expression is final when it is left. -/
def isFinalAtExit (e : Filed Expr) (state : State) : Bool :=
  (codebase.frameOf e state).2.trail.isFinalAt state.trail.depth

theorem inferWithin_eq_visit (budget : Nat) :
    codebase.inferWithin budget = visit (codebase.frameWithin budget) := by
  cases budget <;> rfl

/-- The calls that come of an expression while its frame lies on top of the trail. -/
def frameCalls : Nat → Filed Expr → State → List Call
  | 0, _, _ => []
  | budget + 1, e, state =>
    (typeOf codebase state.trail.reach e).calls (codebase.inferWithin budget)
      (codebase.callsWithin budget) { state with trail := state.trail.push (Expr.key e) }

theorem callsWithin_eq (budget : Nat) (e : Filed Expr) (state : State) :
    codebase.callsWithin budget e state = ⟨e, state⟩ ::
      if (Call.mk e state).isEntered then codebase.frameCalls budget e state else [] := by
  cases budget with
  | zero => simp [callsWithin, frameCalls]
  | succ budget => rfl

theorem self_mem_callsWithin (budget : Nat) (e : Filed Expr) (state : State) :
    ⟨e, state⟩ ∈ codebase.callsWithin budget e state := by
  cases budget <;> simp [callsWithin]

variable {codebase}

variable (codebase) in
/-- The frame of an expression works alike with and without a trail. -/
theorem frameWithin_eq (budget : Nat) {trail : Trail} (htrail : trail.Consistent) {e : Filed Expr}
    (hnew : trail.active.get? (Expr.key e) = none) (memo : Option Memo) :
    codebase.frameWithin budget e ⟨trail.push (Expr.key e), memo⟩ =
      (codebase.inside trail.reach budget trail.keys e memo).onto (trail.push (Expr.key e)) := by
  cases budget with
  | zero => rfl
  | succ budget => exact codebase.byRule_eq (codebase.inferWithin_eq budget) htrail hnew memo

theorem isEntered_iff {trail : Trail} (htrail : trail.Consistent) {e : Filed Expr}
    {memo : Option Memo} :
    (Call.mk e ⟨trail, memo⟩).isEntered = true ↔
      memo.bind (·.get? ⟨Expr.key e, trail.reach⟩) = none ∧ Expr.key e ∉ trail.keys := by
  rw [← htrail.get?_active_eq_none_iff]
  simp [Call.isEntered, Call.isKnown, State.known?, Trail.isUnderWay, Dict.contains]

/-- A request is the first of its own calls; the others come of its rule, if it is entered. -/
theorem callsWithin_succ_cases {budget : Nat} {e : Filed Expr} {trail : Trail}
    (htrail : trail.Consistent) {memo : Option Memo} {call : Call}
    (h : call ∈ codebase.callsWithin (budget + 1) e ⟨trail, memo⟩) :
    call = ⟨e, ⟨trail, memo⟩⟩ ∨
      memo.bind (·.get? ⟨Expr.key e, trail.reach⟩) = none ∧ Expr.key e ∉ trail.keys ∧
        call ∈ (typeOf codebase trail.reach e).calls (codebase.inferWithin budget)
          (codebase.callsWithin budget) ⟨trail.push (Expr.key e), memo⟩ := by
  rcases List.mem_cons.1 h with rfl | h
  · exact Or.inl rfl
  split at h
  · next hentered =>
    obtain ⟨hmemo, hpath⟩ := (isEntered_iff htrail).1 hentered
    exact Or.inr ⟨hmemo, hpath, h⟩
  · cases h

/-! ### Where entries come from -/

variable (codebase) in
/-- What a request of its own finds of the called expression, with the memo of the moment. -/
def freshAt (call : Call) : Outcome Ty :=
  (codebase.inferFresh call.state.trail.reach call.state.memo call.expr).1

variable (codebase) in
/-- One of the calls entered the expression of a memo key, and its request of its own finds this
type. -/
def Vouched (calls : List Call) (key : MemoKey) (ty : Ty) : Prop :=
  ∃ call ∈ calls, call.isEntered ∧ call.memoKey = key ∧ codebase.freshAt call = .value ty

variable (codebase) in
/-- Every entry of the later memo is one of the earlier memo or vouched for. -/
def Accounted (calls : List Call) (before after : Option Memo) : Prop :=
  ∀ key ty, after.bind (·.get? key) = some ty →
    before.bind (·.get? key) = some ty ∨ codebase.Vouched calls key ty

theorem Accounted.refl (calls : List Call) (memo : Option Memo) :
    codebase.Accounted calls memo memo := by
  intro key ty h
  exact Or.inl h

theorem Accounted.trans {calls later : List Call} {before between after : Option Memo}
    (h : codebase.Accounted calls before between) (h' : codebase.Accounted later between after) :
    codebase.Accounted (calls ++ later) before after := by
  intro key ty hafter
  rcases h' key ty hafter with hbetween | ⟨call, hcall, hvouch⟩
  · rcases h key ty hbetween with hbefore | ⟨call, hcall, hvouch⟩
    · exact Or.inl hbefore
    · exact Or.inr ⟨call, List.mem_append_left _ hcall, hvouch⟩
  · exact Or.inr ⟨call, List.mem_append_right _ hcall, hvouch⟩

theorem Accounted.mono {calls more : List Call} {before after : Option Memo}
    (h : codebase.Accounted calls before after) (hsub : calls ⊆ more) :
    codebase.Accounted more before after := by
  intro key ty hafter
  rcases h key ty hafter with hbefore | ⟨call, hcall, hvouch⟩
  · exact Or.inl hbefore
  · exact Or.inr ⟨call, hsub hcall, hvouch⟩

theorem accounted_calls {trail : Trail} {budget : Nat} (htrail : trail.Consistent)
    (h : ∀ e {trail : Trail} (memo : Option Memo), trail.Consistent →
      codebase.Accounted (codebase.callsWithin budget e ⟨trail, memo⟩) memo
        (codebase.inferWithin budget e ⟨trail, memo⟩).2.memo)
    (inquiry : Inquiry Ty) (memo : Option Memo) :
    codebase.Accounted
      (inquiry.calls (codebase.inferWithin budget) (codebase.callsWithin budget) ⟨trail, memo⟩) memo
      (inquiry.run (codebase.inferWithin budget) ⟨trail, memo⟩).2.memo := by
  induction inquiry generalizing trail memo with
  | done value => exact Accounted.refl _ _
  | fail foreign => exact Accounted.refl _ _
  | ask e next ih =>
    have hfirst := h e memo htrail
    have hstate := codebase.inferWithin_eq budget htrail e memo
    simp only [Inquiry.calls, Inquiry.run]
    rw [hstate] at hfirst ⊢
    simp only [Finding.onto] at hfirst ⊢
    cases hout : (codebase.probe trail.reach budget trail.keys e memo).outcome with
    | value ty => exact hfirst.trans (ih ty (htrail.cutBy _) _)
    | failed foreign => simpa using hfirst
    | exhausted => simpa using hfirst

/-- Leaving a frame writes its own entry and no other. -/
theorem accounted_leave {calls : List Call} {found : Finding Ty} {key : MemoKey} {depth : Nat}
    {before : Option Memo} (h : codebase.Accounted calls before found.memo)
    (hwrite : ∀ ty, found.outcome = .value ty → found.isFinalAt depth = true →
      codebase.Vouched calls key ty) :
    codebase.Accounted calls before (found.leave key depth).memo := by
  apply Finding.leave_memo_kept (codebase.Accounted calls before) h
  intro ty hout hfinal key' ty' hafter
  rcases Memo.entry_of_insert hafter with ⟨rfl, rfl⟩ | hafter
  · exact Or.inr (hwrite _ hout hfinal)
  · exact h key' ty' hafter

/-- Whatever a request writes is vouched for. -/
theorem accounted_callsWithin {budget : Nat} (hbudget : budget ≤ codebase.budget) (e : Filed Expr)
    {trail : Trail} (memo : Option Memo) (htrail : trail.Consistent) :
    codebase.Accounted (codebase.callsWithin budget e ⟨trail, memo⟩) memo
      (codebase.inferWithin budget e ⟨trail, memo⟩).2.memo := by
  induction budget generalizing e trail memo with
  | zero =>
    rw [codebase.inferWithin_eq 0 htrail]
    simp only [Finding.onto]
    rcases codebase.probe_cases trail.reach 0 trail.keys e memo with
      ⟨ty, -, hprobe⟩ | ⟨depth, -, -, hprobe⟩ | ⟨-, -, hprobe⟩ <;> rw [hprobe] <;>
      exact Accounted.refl _ _
  | succ budget ih =>
    rw [codebase.inferWithin_eq (budget + 1) htrail]
    simp only [Finding.onto]
    rcases codebase.probe_cases trail.reach (budget + 1) trail.keys e memo with
      ⟨ty, -, hprobe⟩ | ⟨depth, -, -, hprobe⟩ | ⟨hmemo, hpath, hprobe⟩
    · rw [hprobe]
      exact Accounted.refl _ _
    · rw [hprobe]
      exact Accounted.refl _ _
    · rw [hprobe]
      have hnew := htrail.get?_active_eq_none_iff.2 hpath
      have hentered := (isEntered_iff htrail).2 ⟨hmemo, hpath⟩
      have hcalls : codebase.callsWithin (budget + 1) e ⟨trail, memo⟩ =
          ⟨e, ⟨trail, memo⟩⟩ :: (typeOf codebase trail.reach e).calls (codebase.inferWithin budget)
            (codebase.callsWithin budget) ⟨trail.push (Expr.key e), memo⟩ := by
        simp [callsWithin, hentered]
      have hquestions : ∀ e' {trail' : Trail} (memo' : Option Memo), trail'.Consistent →
          codebase.Accounted (codebase.callsWithin budget e' ⟨trail', memo'⟩) memo'
            (codebase.inferWithin budget e' ⟨trail', memo'⟩).2.memo := by
        intro e' trail' memo' htrail'
        exact ih (by omega) e' memo' htrail'
      have hrule := accounted_calls (htrail.push hnew) hquestions
        (typeOf codebase trail.reach e) memo
      have hframe := codebase.frameWithin_eq (budget + 1) htrail hnew memo
      simp only [frameWithin, byRule, Trail.reach_push] at hframe
      rw [hframe] at hrule
      have hsub : (typeOf codebase trail.reach e).calls (codebase.inferWithin budget)
          (codebase.callsWithin budget) ⟨trail.push (Expr.key e), memo⟩ ⊆
            codebase.callsWithin (budget + 1) e ⟨trail, memo⟩ := by
        rw [hcalls]
        exact List.subset_cons_self _ _
      apply accounted_leave (hrule.mono hsub)
      intro ty hout hfinal
      refine ⟨⟨e, ⟨trail, memo⟩⟩, codebase.self_mem_callsWithin _ _ _, hentered, rfl, ?_⟩
      -- the frame is final: the answer is that of a request of its own, also with a larger budget
      have hfresh := (probe_of_final hmemo hpath (by simpa using hfinal)).1
      rw [hprobe] at hfresh
      have hvalue : (codebase.probe trail.reach (budget + 1) [] e memo).outcome = .value ty := by
        rw [← hfresh, ← hout]
        rfl
      rw [freshAt, inferFresh_eq, probe_mono hbudget (by simp [hvalue])]
      exact hvalue

theorem isFinalAtExit_eq {trail : Trail} (htrail : trail.Consistent) {e : Filed Expr}
    (hnew : trail.active.get? (Expr.key e) = none) (memo : Option Memo) :
    codebase.isFinalAtExit e ⟨trail, memo⟩ =
      (codebase.inside trail.reach codebase.budget trail.keys e memo).isFinalAt
        trail.keys.length := by
  simp [isFinalAtExit, frameOf, frameWithin_eq codebase codebase.budget htrail hnew, Finding.onto,
    Trail.isFinalAt_cutBy_push, Finding.isFinalAt]

/-- Whatever nested scopes have put on the trail, an expression whose frame is final when it is left
has the type, and leaves the memo, that a request of its own finds with the same memo. And every
entry that a request writes, final itself or not, is the type that a request of its own would have
found in the moment in which the entry's expression was entered. -/
theorem final_is_fresh (codebase : Codebase) (reach : Reach) (steps : List Scopes.Step)
    (memo : Option Memo) (e : Filed Expr) :
    let state : State := ⟨((Scopes.fresh reach).run steps).trail, memo⟩
    ((Call.mk e state).isEntered = true → codebase.isFinalAtExit e state = true →
      (codebase.infer e state).1 = (codebase.inferFresh reach memo e).1 ∧
      (codebase.infer e state).2.memo = (codebase.inferFresh reach memo e).2.memo ∧
      (codebase.Closed → codebase.HasExpr e → ∃ ty, (codebase.infer e state).1 = .value ty)) ∧
    codebase.Accounted (codebase.calls e state) memo (codebase.infer e state).2.memo := by
  have htrail := Scopes.consistent_run reach steps
  have hreach : ((Scopes.fresh reach).run steps).trail.reach = reach := Scopes.reach_run _ steps
  generalize ((Scopes.fresh reach).run steps).trail = trail at htrail hreach
  subst hreach
  constructor
  · intro hentered hfinal
    obtain ⟨hmemo, hpath⟩ := (isEntered_iff htrail).1 hentered
    have hnew : trail.active.get? (Expr.key e) = none := by
      rw [htrail.active, depthOf_eq_none_iff.2 hpath]
    rw [isFinalAtExit_eq htrail hnew] at hfinal
    obtain ⟨houtcome, hafter⟩ := probe_of_final hmemo hpath hfinal
    rw [codebase.infer_eq htrail, inferFresh_eq]
    refine ⟨houtcome, hafter, ?_⟩
    intro hclosed he
    obtain ⟨ty, hvalue⟩ := hclosed.inferFresh_value trail.reach memo he
    rw [inferFresh_eq] at hvalue
    exact ⟨ty, houtcome.trans hvalue⟩
  · exact accounted_callsWithin (Nat.le_refl _) e memo htrail

end Codebase

/-- The initializer of a variable that begins with itself or a number is final below the frame of
another use of the variable. -/
theorem Project.selfOrNumber_final_is_fresh :
    ∃ e outer, selfOrNumber.codebase.expr? ⟨0, 0⟩ = .ok (some e) ∧
      selfOrNumber.codebase.expr? ⟨0, 4⟩ = .ok (some outer) ∧
      let state : State := ⟨((Scopes.fresh .full).run [.enter (Expr.key outer)]).trail, some .empty⟩
      (Call.mk e state).isEntered = true ∧ selfOrNumber.codebase.isFinalAtExit e state = true ∧
        (selfOrNumber.codebase.infer e state).1 =
          (selfOrNumber.codebase.inferFresh .full (some .empty) e).1 ∧
        (selfOrNumber.codebase.infer e state).2.memo =
          (selfOrNumber.codebase.inferFresh .full (some .empty) e).2.memo ∧
        ∃ ty, (selfOrNumber.codebase.infer e state).1 = .value ty := by
  have htest : selfOrNumber.codebase.testAt ⟨0, 0⟩ (fun e => selfOrNumber.codebase.testAt ⟨0, 4⟩
      fun outer =>
        let state : State :=
          ⟨((Scopes.fresh .full).run [.enter (Expr.key outer)]).trail, some .empty⟩
        (Call.mk e state).isEntered && selfOrNumber.codebase.isFinalAtExit e state) = true := by
    decide +kernel
  have hclosed := Project.closed made_selfOrNumber
  obtain ⟨e, hexpr, he, htest⟩ := hclosed.exists_of_testAt htest
  obtain ⟨outer, houter, -, htest⟩ := hclosed.exists_of_testAt htest
  obtain ⟨hentered, hfinal⟩ := Bool.and_eq_true_iff.1 htest
  have hfresh := (selfOrNumber.codebase.final_is_fresh .full [.enter (Expr.key outer)] (some .empty)
    e).1 hentered hfinal
  exact ⟨e, outer, hexpr, houter, hentered, hfinal, hfresh.1, hfresh.2.1, hfresh.2.2 hclosed he⟩

end LuaTypes
