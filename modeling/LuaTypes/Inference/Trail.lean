import LuaTypes.Dict
import LuaTypes.Filed
import LuaTypes.Tree.Expression

/-!
# The recursion trail

Inference walks from expression to expression, and definitions may be cyclic. The trail keeps the
stack of expressions under way and refuses to enter one of them again. A refusal cuts an answer
short, but only for the frames above the one it points at: each frame remembers as its cut the
least depth that a refusal within it pointed at, and its answer is final when no refusal pointed
below the frame itself.

* `Trail.enter`, `Trail.push`, `Trail.pop`, `Trail.leave` change the stack;
* `Trail.isFinalAt` says whether the answer of a frame is final.
-/

namespace LuaTypes

/-- What names an expression: its file, its kind, its first byte and its length. -/
structure Key where
  file : FileNumber
  kind : Kind
  start : Nat
  width : Nat
  deriving DecidableEq, Repr

/-- The key with these parts. Positions are counted in 32 bits: a range that ends beyond them names
nothing. -/
def Key.ofRange? (file : FileNumber) (kind : Kind) (start width : Nat) : Option Key :=
  if start + width ≤ 0xFFFFFFFF then some ⟨file, kind, start, width⟩ else none

/-- The key of an expression. -/
def Expr.key (e : Filed Expr) : Key :=
  ⟨e.file, e.value.form.kind, e.value.node.start, e.value.node.width⟩

/-- What a request may look at. -/
inductive Reach where
  /-- Modules are followed into their files. -/
  | full
  /-- The request stays in its file. -/
  | ownFile
  deriving DecidableEq, Repr

/-- An expression under way, with the least depth that a refusal within it pointed at. -/
structure Frame where
  key : Key
  cut : Option Nat
  deriving DecidableEq, Repr

namespace Frame

/-- A frame that learns of a refusal pointing at this depth. -/
def lower (depth : Nat) (frame : Frame) : Frame :=
  { frame with cut := some (frame.cut.elim depth (min depth)) }

@[simp] theorem key_lower (depth : Nat) (frame : Frame) : (frame.lower depth).key = frame.key := rfl

end Frame

/-- The state of the trail: the stack of expressions under way, the latest first, and the depth of
each of them. -/
structure Trail where
  reach : Reach
  stack : List Frame
  active : Dict Key Nat
  deriving DecidableEq

namespace Trail

/-- A trail of a request that has not begun. -/
def fresh (reach : Reach) : Trail := ⟨reach, [], .empty⟩

/-- The number of expressions under way. -/
def depth (trail : Trail) : Nat := trail.stack.length

/-- Whether an expression is under way. -/
def isUnderWay (trail : Trail) (key : Key) : Bool := trail.active.contains key

/-- An expression put on the stack. -/
def push (trail : Trail) (key : Key) : Trail :=
  { trail with
    stack := ⟨key, none⟩ :: trail.stack
    active := trail.active.insert key trail.depth }

/-- A refusal that points at a depth, told to the latest frame. -/
def refuse (trail : Trail) (depth : Nat) : Trail :=
  match trail.stack with
  | [] => trail
  | frame :: rest => { trail with stack := frame.lower depth :: rest }

/-- What comes of entering an expression. -/
inductive Entry where
  | entered (trail : Trail)
  | refused (trail : Trail)

/-- Enters an expression, unless it is under way. -/
def enter (trail : Trail) (key : Key) : Entry :=
  match trail.active.get? key with
  | some depth => .refused (trail.refuse depth)
  | none => .entered (trail.push key)

/-- The frames below one that is left: a refusal that pointed below the frame under it cut that one
short, too. -/
def passOn (cut : Option Nat) : List Frame → List Frame
  | [] => []
  | frame :: rest =>
    match cut with
    | some depth => (if depth < rest.length then frame.lower depth else frame) :: rest
    | none => frame :: rest

/-- The trail without its latest frame. -/
def pop (trail : Trail) : Trail :=
  match trail.stack with
  | [] => trail
  | frame :: rest =>
    { trail with stack := passOn frame.cut rest, active := trail.active.erase frame.key }

/-- The trail with as many latest frames taken away as are said. -/
def popMany : Nat → Trail → Trail
  | 0, trail => trail
  | n + 1, trail => popMany n trail.pop

/-- Leaves the frame at a depth, and whatever is still above it. -/
def leave (trail : Trail) (depth : Nat) : Trail := popMany (trail.depth - depth) trail

/-- The frame at a depth, counted from the bottom of the stack. -/
def frameAt (trail : Trail) (depth : Nat) : Option Frame := trail.stack.reverse[depth]?

/-- Whether no refusal within the frame at a depth pointed below it. -/
def isFinalAt (trail : Trail) (depth : Nat) : Bool :=
  match (trail.frameAt depth).bind (·.cut) with
  | some cut => depth ≤ cut
  | none => true

/-! ### Small facts -/

@[simp] theorem reach_push (trail : Trail) (key : Key) : (trail.push key).reach = trail.reach := rfl

@[simp] theorem depth_push (trail : Trail) (key : Key) :
    (trail.push key).depth = trail.depth + 1 := rfl

@[simp] theorem reach_refuse (trail : Trail) (depth : Nat) :
    (trail.refuse depth).reach = trail.reach := by
  unfold refuse
  split <;> rfl

@[simp] theorem active_refuse (trail : Trail) (depth : Nat) :
    (trail.refuse depth).active = trail.active := by
  unfold refuse
  split <;> rfl

@[simp] theorem depth_refuse (trail : Trail) (depth : Nat) :
    (trail.refuse depth).depth = trail.depth := by
  unfold refuse Trail.depth
  split
  · rfl
  · next h => simp [h]

@[simp] theorem length_passOn (cut : Option Nat) (frames : List Frame) :
    (passOn cut frames).length = frames.length := by
  cases frames with
  | nil => rfl
  | cons frame rest => cases cut <;> simp [passOn]

@[simp] theorem reach_pop (trail : Trail) : trail.pop.reach = trail.reach := by
  unfold pop
  split <;> rfl

@[simp] theorem depth_pop (trail : Trail) : trail.pop.depth = trail.depth - 1 := by
  unfold pop Trail.depth
  split
  · next h => simp [h]
  · next h => simp [h]

/-- Leaving a frame that has none above it takes away this frame alone. -/
theorem leave_of_depth_eq {trail : Trail} {depth : Nat} (h : trail.depth = depth + 1) :
    trail.leave depth = trail.pop := by
  simp [leave, h, popMany]

end Trail

end LuaTypes
