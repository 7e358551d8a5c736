import LuaTypes.Proofs.Inference.Calls
import LuaTypes.Proofs.Inference.Isolation

/-!
# The course of a request

Whichever store keeps the types, a request takes a course: expressions are looked up, refused or
entered one after the other, and the store may fail in between. Inference with a memo is the course
with that store.

* `Store`: where types are kept; looking up and keeping may fail; `Memo.store`: a memo as a store;
* `Course`: what happens in a request, refusals and entries included; `Store.ask`: the course of a
  request;
* `Memo.inferWithin_eq`: inference with a memo takes the course with that store;
* `Memo.inferWithin_logged`: what is refused and entered on the way, as the log of calls has it.
-/

namespace LuaTypes

/-! ### Stores and courses -/

/-- Where types are kept between requests. To look one up and to keep one may both change the store
and may both fail. -/
structure Store (σ : Type) where
  lookUp : MemoKey → σ → Reading (Option Ty) × σ
  keep : MemoKey → Ty → σ → Reading Unit × σ

/-- A memo, or none. -/
def Memo.store : Store (Option Memo) where
  lookUp key memo := (.ok (memo.bind (·.get? key)), memo)
  keep key ty memo := (.ok (), memo.map (·.insert key ty))

/-- What happens in a request: how it ends, what it leaves of trail and store, and, in order, the
expressions that were refused and those whose types were found by their rules. -/
structure Course (σ α : Type) where
  outcome : Outcome α
  trail : Trail
  store : σ
  refused : List Key
  entered : List MemoKey

/-- A way to find the type of an expression with trail and store. -/
abbrev Course.Finder (σ : Type) := Filed Expr → Trail → σ → Course σ Ty

/-- A course that goes on with an answer. -/
def Course.andThen {σ α β : Type} (first : Course σ α) (next : α → Trail → σ → Course σ β) :
    Course σ β :=
  match first.outcome with
  | .value a =>
    let rest := next a first.trail first.store
    { rest with
      refused := first.refused ++ rest.refused
      entered := first.entered ++ rest.entered }
  | .failed foreign => { first with outcome := .failed foreign }
  | .exhausted => { first with outcome := .exhausted }

/-- The course of an inquiry, whose questions are answered one after the other. -/
def Inquiry.course {σ α : Type} (find : Course.Finder σ) : Inquiry α → Trail → σ → Course σ α
  | .done value, trail, store => ⟨.value value, trail, store, [], []⟩
  | .fail foreign, trail, store => ⟨.failed foreign, trail, store, [], []⟩
  | .ask e next, trail, store =>
    (find e trail store).andThen fun ty => (next ty).course find

namespace Store

variable {σ : Type} (store : Store σ)

/-- What is left of the store when a frame ends. A type is kept if it is final, and the frame fails
if it cannot be kept. -/
def settle (key : MemoKey) (isFinal : Bool) (outcome : Outcome Ty) (s : σ) : Outcome Ty × σ :=
  match outcome with
  | .value ty =>
    if isFinal then
      match store.keep key ty s with
      | (.ok (), s) => (.value ty, s)
      | (.error foreign, s) => (.failed foreign, s)
    else (.value ty, s)
  | outcome => (outcome, s)

/-- Looks an expression up in the store, or enters it and finds its type. -/
def visit (find : Course.Finder σ) : Course.Finder σ := fun e trail s =>
  let key := Expr.key e
  match store.lookUp ⟨key, trail.reach⟩ s with
  | (.error foreign, s) => ⟨.failed foreign, trail, s, [], []⟩
  | (.ok (some ty), s) => ⟨.value ty, trail, s, [], []⟩
  | (.ok none, s) =>
    match trail.enter key with
    | .refused trail => ⟨.value .unknown, trail, s, [key], []⟩
    | .entered inner =>
      let inside := find e inner s
      let (outcome, s) := store.settle ⟨key, inside.trail.reach⟩
        (inside.trail.isFinalAt trail.depth) inside.outcome inside.store
      ⟨outcome, inside.trail.leave trail.depth, s, inside.refused,
        ⟨key, trail.reach⟩ :: inside.entered⟩

/-- Infers an expression; at most `budget` expressions are entered one inside the other. -/
def inferWithin (codebase : Codebase) : Nat → Course.Finder σ
  | 0 => store.visit fun _ trail s => ⟨.exhausted, trail, s, [], []⟩
  | budget + 1 => store.visit fun e trail =>
    (typeOf codebase trail.reach e).course (inferWithin codebase budget) trail

/-- The course of a request on a trail. -/
def ask (codebase : Codebase) (budget : Nat) (question : Question) (trail : Trail) (s : σ) :
    Course σ Ty :=
  (question.inquiry codebase trail.reach).course (store.inferWithin codebase budget) trail s

/-- Requests that come one after the other on one trail. -/
def series (codebase : Codebase) (budget : Nat) : List Question → Trail → σ → List (Course σ Ty)
  | [], _, _ => []
  | question :: rest, trail, s =>
    let course := store.ask codebase budget question trail s
    course :: series codebase budget rest course.trail course.store

/-- Requests that come one after the other, each on a trail of its own. -/
def freshSeries (codebase : Codebase) (budget : Nat) (reach : Reach) :
    List Question → σ → List (Course σ Ty)
  | [], _ => []
  | question :: rest, s =>
    let course := store.ask codebase budget question (.fresh reach) s
    course :: freshSeries codebase budget reach rest course.store

end Store

/-! ### Inference with a memo -/

/-- How a course with a memo ends, and the state that it leaves. -/
def Course.ending {α : Type} (course : Course (Option Memo) α) : Outcome α × State :=
  (course.outcome, ⟨course.trail, course.store⟩)

namespace Memo

theorem run_eq {α : Type} {find : LuaTypes.Finder} {find' : Course.Finder (Option Memo)}
    (h : ∀ e state, find e state = (find' e state.trail state.memo).ending) (inquiry : Inquiry α)
    (state : State) :
    inquiry.run find state = (inquiry.course find' state.trail state.memo).ending := by
  induction inquiry generalizing state with
  | done value => rfl
  | fail foreign => rfl
  | ask e next ih =>
    simp only [Inquiry.run, Inquiry.course, Course.andThen, h e state, Course.ending]
    cases (find' e state.trail state.memo).outcome with
    | value ty => exact ih ty _
    | failed foreign => rfl
    | exhausted => rfl

theorem visit_eq {find : LuaTypes.Finder} {find' : Course.Finder (Option Memo)}
    (h : ∀ e state, find e state = (find' e state.trail state.memo).ending) (e : Filed Expr)
    (state : State) :
    LuaTypes.visit find e state = (Memo.store.visit find' e state.trail state.memo).ending := by
  simp only [LuaTypes.visit, Store.visit, State.known?, Memo.store]
  cases state.memo.bind (·.get? ⟨Expr.key e, state.trail.reach⟩) with
  | some ty => rfl
  | none =>
    cases state.trail.enter (Expr.key e) with
    | refused trail => rfl
    | entered inner =>
      simp only [h e, Course.ending, State.close, Store.settle]
      cases (find' e inner state.memo).outcome with
      | value ty =>
        simp only [State.keep]
        split <;> rfl
      | failed foreign => rfl
      | exhausted => rfl

/-- Inference with a memo takes the course of inference with that store. -/
theorem inferWithin_eq (codebase : Codebase) (budget : Nat) (e : Filed Expr) (state : State) :
    codebase.inferWithin budget e state =
      (Memo.store.inferWithin codebase budget e state.trail state.memo).ending := by
  induction budget generalizing e state with
  | zero =>
    have hfind : ∀ (e : Filed Expr) (state : State), ((.exhausted, state) : Outcome Ty × State) =
        (⟨.exhausted, state.trail, state.memo, [], []⟩ : Course (Option Memo) Ty).ending :=
      fun _ _ => rfl
    exact visit_eq hfind e state
  | succ budget ih =>
    exact visit_eq (fun e state => run_eq ih (typeOf codebase state.trail.reach e) state) e state

end Memo

/-! ### What is logged -/

/-- The expressions that calls enter, with the reach in which they do, in order. -/
def Call.entered (calls : List Call) : List MemoKey := (calls.filter (·.isEntered)).map (·.memoKey)

theorem Call.entered_append (calls more : List Call) :
    entered (calls ++ more) = entered calls ++ entered more := by
  simp [entered]

theorem Call.entered_cons (call : Call) (calls : List Call) :
    entered (call :: calls) = if call.isEntered then call.memoKey :: entered calls
      else entered calls := by
  cases h : call.isEntered <;> simp [entered, h]

/-- The expressions that calls find refused, in order. -/
def Call.refused (calls : List Call) : List Key :=
  (calls.filter (·.isRefused)).map fun call => Expr.key call.expr

theorem Call.refused_append (calls more : List Call) :
    refused (calls ++ more) = refused calls ++ refused more := by
  simp [refused]

/-- The refusals and entries of a course are those of a log of calls. -/
structure Course.IsLogged {σ α : Type} (course : Course σ α) (calls : List Call) : Prop where
  refused : course.refused = Call.refused calls
  entered : course.entered = Call.entered calls

namespace Memo

variable {codebase : Codebase}

/-- An inquiry is logged if its questions are. -/
theorem course_logged {α : Type} {budget : Nat}
    (h : ∀ e trail memo, (Memo.store.inferWithin codebase budget e trail memo).IsLogged
      (codebase.callsWithin budget e ⟨trail, memo⟩))
    (inquiry : Inquiry α) (trail : Trail) (memo : Option Memo) :
    (inquiry.course (Memo.store.inferWithin codebase budget) trail memo).IsLogged
      (inquiry.calls (codebase.inferWithin budget) (codebase.callsWithin budget)
        ⟨trail, memo⟩) := by
  induction inquiry generalizing trail memo with
  | done value => exact ⟨rfl, rfl⟩
  | fail foreign => exact ⟨rfl, rfl⟩
  | ask e next ih =>
    have hfirst := h e trail memo
    simp only [Inquiry.course, Inquiry.calls, Course.andThen, inferWithin_eq codebase budget e,
      Course.ending]
    cases (Memo.store.inferWithin codebase budget e trail memo).outcome with
    | value ty =>
      have hrest := ih ty (Memo.store.inferWithin codebase budget e trail memo).trail
        (Memo.store.inferWithin codebase budget e trail memo).store
      constructor
      · rw [Call.refused_append, ← hfirst.refused, ← hrest.refused]
      · rw [Call.entered_append, ← hfirst.entered, ← hrest.entered]
    | failed foreign =>
      rw [List.append_nil]
      exact ⟨hfirst.refused, hfirst.entered⟩
    | exhausted =>
      rw [List.append_nil]
      exact ⟨hfirst.refused, hfirst.entered⟩

/-- A visit is logged if what goes on in the frame of the expression is. -/
theorem visit_logged {find : Course.Finder (Option Memo)} {e : Filed Expr} {trail : Trail}
    {memo : Option Memo} {calls : List Call}
    (h : (find e (trail.push (Expr.key e)) memo).IsLogged calls) :
    (Memo.store.visit find e trail memo).IsLogged (⟨e, ⟨trail, memo⟩⟩ ::
      if (Call.mk e ⟨trail, memo⟩).isEntered then calls else []) := by
  simp only [Store.visit, Memo.store]
  cases hknown : memo.bind (·.get? ⟨Expr.key e, trail.reach⟩) with
  | some ty =>
    have htests : (Call.mk e ⟨trail, memo⟩).isEntered = false ∧
        (Call.mk e ⟨trail, memo⟩).isRefused = false := by
      simp [Call.isEntered, Call.isRefused, Call.isKnown, State.known?, hknown]
    constructor <;> simp [Call.refused, Call.entered, htests]
  | none =>
    cases hactive : trail.active.get? (Expr.key e) with
    | some depth =>
      have htests : (Call.mk e ⟨trail, memo⟩).isEntered = false ∧
          (Call.mk e ⟨trail, memo⟩).isRefused = true := by
        simp [Call.isEntered, Call.isRefused, Call.isKnown, State.known?, hknown,
          Trail.isUnderWay, Dict.contains, hactive]
      constructor <;> simp [Trail.enter, hactive, Call.refused, Call.entered, htests]
    | none =>
      have htests : (Call.mk e ⟨trail, memo⟩).isEntered = true ∧
          (Call.mk e ⟨trail, memo⟩).isRefused = false := by
        simp [Call.isEntered, Call.isRefused, Call.isKnown, State.known?, hknown,
          Trail.isUnderWay, Dict.contains, hactive]
      constructor
      · simp [Trail.enter, hactive, Call.refused, htests, h.refused]
      · simp [Trail.enter, hactive, Call.entered, htests, h.entered, Call.memoKey]

/-- The refusals and entries on the way of a request are those of its calls: each expression that
is entered is logged, and nothing else. -/
theorem inferWithin_logged (codebase : Codebase) (budget : Nat) (e : Filed Expr) (trail : Trail)
    (memo : Option Memo) : (Memo.store.inferWithin codebase budget e trail memo).IsLogged
      (codebase.callsWithin budget e ⟨trail, memo⟩) := by
  induction budget generalizing e trail memo with
  | zero =>
    rw [codebase.callsWithin_eq]
    exact visit_logged ⟨rfl, rfl⟩
  | succ budget ih =>
    rw [codebase.callsWithin_eq]
    exact visit_logged (course_logged ih (typeOf codebase trail.reach e) _ memo)

end Memo

end LuaTypes
