import LuaTypes.Inference.Memo
import LuaTypes.Inference.Rules

/-!
# Inference

The rules say what to ask; here the questions are answered. An answer that the memo holds is taken
from it. Otherwise the trail is entered: an expression that is under way already is unknown for
now, any other is inferred by its rule, and its type is kept in the memo if no refusal cut it
short.

Each expression entered takes one unit of a budget. As no expression is entered twice at a time, as
many units as a codebase has nodes are enough (`Codebase.budget`).

* `Inquiry.run` answers the questions of an inquiry one after the other;
* `visit` puts memo and trail around a way to find types, `Codebase.byRule` is the way by the rules;
* `Codebase.inferWithin` infers an expression within a budget, `Codebase.infer` within the budget of
  the codebase.
-/

namespace LuaTypes

/-- The state of a request: its trail, and the memo if it uses one. -/
structure State where
  trail : Trail
  memo : Option Memo

/-- How a request ends. -/
inductive Outcome (α : Type) where
  | value (value : α)
  /-- A foreign kind was looked at. -/
  | failed (foreign : ForeignKind)
  /-- The budget was used up. -/
  | exhausted

namespace State

/-- A request that has not begun. -/
def fresh (reach : Reach) (memo : Option Memo) : State := ⟨.fresh reach, memo⟩

/-- The type that the memo holds of an expression in the reach of the request. -/
def known? (state : State) (key : Key) : Option Ty :=
  state.memo.bind (·.get? ⟨key, state.trail.reach⟩)

/-- The state with a type kept in the memo, if there is one. -/
def keep (state : State) (key : Key) (ty : Ty) : State :=
  { state with memo := state.memo.map (·.insert ⟨key, state.trail.reach⟩ ty) }

/-- Leaves an expression entered at a depth. Its type is kept if it is final. -/
def close (state : State) (key : Key) (depth : Nat) (outcome : Outcome Ty) : State :=
  let kept :=
    match outcome with
    | .value ty => if state.trail.isFinalAt depth then state.keep key ty else state
    | _ => state
  { kept with trail := kept.trail.leave depth }

end State

/-- A way to find the type of an expression. -/
abbrev Finder := Filed Expr → State → Outcome Ty × State

/-- Answers the questions of an inquiry one after the other. -/
def Inquiry.run {α : Type} (find : Finder) : Inquiry α → State → Outcome α × State
  | .done value, state => (.value value, state)
  | .fail foreign, state => (.failed foreign, state)
  | .ask e next, state =>
    match find e state with
    | (.value ty, state) => (next ty).run find state
    | (.failed foreign, state) => (.failed foreign, state)
    | (.exhausted, state) => (.exhausted, state)

/-- Looks an expression up in the memo, or enters it and finds its type. -/
def visit (find : Finder) : Finder := fun e state =>
  let key := Expr.key e
  match state.known? key with
  | some ty => (.value ty, state)
  | none =>
    match state.trail.enter key with
    | .refused trail => (.value .unknown, { state with trail := trail })
    | .entered trail =>
      let (outcome, inside) := find e { state with trail := trail }
      (outcome, inside.close key state.trail.depth outcome)

namespace Codebase

/-- Finds the type of an expression by its rule; `find` answers what the rule asks. -/
def byRule (codebase : Codebase) (find : Finder) : Finder := fun e state =>
  (typeOf codebase state.trail.reach e).run find state

/-- Infers an expression; at most `budget` expressions are entered one inside the other. -/
def inferWithin (codebase : Codebase) : Nat → Finder
  | 0 => visit fun _ state => (.exhausted, state)
  | budget + 1 => visit (codebase.byRule (codebase.inferWithin budget))

/-- As many expressions as can be under way at a time. -/
def budget (codebase : Codebase) : Nat := Tree.nodeCountAll codebase.files

/-- Infers an expression within an ongoing request. -/
def infer (codebase : Codebase) : Finder := codebase.inferWithin codebase.budget

/-- Answers an inquiry within an ongoing request. -/
def answer {α : Type} (codebase : Codebase) (inquiry : Inquiry α) (state : State) :
    Outcome α × State :=
  inquiry.run codebase.infer state

/-- Infers an expression as a request of its own. -/
def inferFresh (codebase : Codebase) (reach : Reach) (memo : Option Memo) (e : Filed Expr) :
    Outcome Ty × State :=
  codebase.infer e (.fresh reach memo)

end Codebase

end LuaTypes
