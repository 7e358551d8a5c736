import LuaTypes.Inference.Trail

/-!
# Nested scopes

How a request uses its trail: an accepted expression opens a scope, and leaving the scope releases
the frames that it put on the stack. A scope may also be forgotten, so that its frame stays until an
outer scope is left, and a failure leaves all open scopes at once.
-/

namespace LuaTypes

/-- A trail with the depths at which the open scopes were entered, the innermost first. -/
structure Scopes where
  trail : Trail
  depths : List Nat
  deriving DecidableEq

namespace Scopes

/-- What may happen in the innermost scope. -/
inductive Step where
  | enter (key : Key)
  | leave
  | forget
  | unwind
  deriving DecidableEq, Repr

/-- No scope is open. -/
def fresh (reach : Reach) : Scopes := ⟨.fresh reach, []⟩

/-- Whether the answer of the innermost open scope is final; outside of all scopes there is none. -/
def isFinal? (scopes : Scopes) : Option Bool := scopes.depths.head?.map scopes.trail.isFinalAt

/-- Leaves all open scopes, the innermost first. -/
def closeAll (scopes : Scopes) : Scopes := ⟨scopes.depths.foldl Trail.leave scopes.trail, []⟩

/-- Enters an expression in a scope of its own; says whether it was accepted. -/
def enter (scopes : Scopes) (key : Key) : Scopes × Bool :=
  match scopes.trail.enter key with
  | .entered trail => (⟨trail, scopes.trail.depth :: scopes.depths⟩, true)
  | .refused trail => (⟨trail, scopes.depths⟩, false)

/-- One step; there is nothing to leave, to forget or to unwind where no scope is open. -/
def step (scopes : Scopes) : Step → Scopes
  | .enter key => (scopes.enter key).1
  | .leave =>
    match scopes.depths with
    | [] => scopes
    | depth :: outer => ⟨scopes.trail.leave depth, outer⟩
  | .forget => { scopes with depths := scopes.depths.tail }
  | .unwind => scopes.closeAll

/-- Steps taken one after the other. -/
def run (scopes : Scopes) (steps : List Step) : Scopes := steps.foldl step scopes

@[simp] theorem run_nil (scopes : Scopes) : scopes.run [] = scopes := rfl

@[simp] theorem run_cons (scopes : Scopes) (step : Step) (steps : List Step) :
    scopes.run (step :: steps) = (scopes.step step).run steps := rfl

theorem run_append (scopes : Scopes) (steps more : List Step) :
    scopes.run (steps ++ more) = (scopes.run steps).run more :=
  List.foldl_append

end Scopes

end LuaTypes
