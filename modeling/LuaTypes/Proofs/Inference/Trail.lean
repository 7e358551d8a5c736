import LuaTypes.Inference.Scopes

/-!
# Consistent trails

A trail keeps the keys of its frames twice: on the stack and, with their depths, in a map. In every
trail that nested scopes can bring about the two say the same (`Scopes.consistent_run`), whichever
scopes were left, forgotten or unwound on the way.

* `depthOf`: the depth of a key on a stack of keys;
* `Trail.Consistent`: no key stands on the stack twice, and the map holds the depths;
* `Trail.cutBy`: a trail whose latest frame has learnt of a refusal, or of none.
-/

namespace LuaTypes

/-- The depth of a key on a stack of keys, the latest first: the number of keys below it. -/
def depthOf : List Key → Key → Option Nat
  | [], _ => none
  | k :: below, key => if k = key then some below.length else depthOf below key

theorem depthOf_eq_none_iff {keys : List Key} {key : Key} :
    depthOf keys key = none ↔ key ∉ keys := by
  induction keys with
  | nil => simp [depthOf]
  | cons k below ih =>
    by_cases h : k = key
    · simp [depthOf, h]
    · simp [depthOf, h, ih, Ne.symm h]

theorem depthOf_lt {keys : List Key} {key : Key} {depth : Nat} (h : depthOf keys key = some depth) :
    depth < keys.length := by
  induction keys with
  | nil => cases h
  | cons k below ih =>
    simp only [depthOf] at h
    split at h
    · cases h
      simp
    · exact Nat.lt_succ_of_lt (ih h)

/-- Keys put below a stack move its depths up; a key that is not on the stack may be one of them. -/
theorem depthOf_append (keys below : List Key) (key : Key) :
    depthOf (keys ++ below) key =
      match depthOf keys key with
      | some depth => some (depth + below.length)
      | none => depthOf below key := by
  induction keys with
  | nil => rfl
  | cons k keys ih =>
    by_cases h : k = key
    · simp [depthOf, h]
    · simp [depthOf, h, ih]

namespace Trail

/-- The keys of the stack, the latest first. -/
def keys (trail : Trail) : List Key := trail.stack.map (·.key)

/-- The stack and the map of depths say the same. -/
structure Consistent (trail : Trail) : Prop where
  distinct : trail.keys.Nodup
  active : ∀ key, trail.active.get? key = depthOf trail.keys key

/-- The map has nothing under a key that is not on the stack. -/
theorem Consistent.get?_active_eq_none_iff {trail : Trail} (h : trail.Consistent) {key : Key} :
    trail.active.get? key = none ↔ key ∉ trail.keys := by
  rw [h.active, depthOf_eq_none_iff]

@[simp] theorem keys_fresh (reach : Reach) : (fresh reach).keys = [] := rfl

@[simp] theorem keys_push (trail : Trail) (key : Key) :
    (trail.push key).keys = key :: trail.keys := rfl

@[simp] theorem keys_refuse (trail : Trail) (depth : Nat) :
    (trail.refuse depth).keys = trail.keys := by
  unfold refuse keys
  split
  · rfl
  · next h => simp [h]

@[simp] theorem length_keys (trail : Trail) : trail.keys.length = trail.depth := by
  simp [keys, Trail.depth]

@[simp] theorem keys_pop (trail : Trail) : trail.pop.keys = trail.keys.tail := by
  unfold pop keys
  split
  · next h => simp [h]
  · next frame rest h =>
    rw [h]
    cases rest with
    | nil => rfl
    | cons frame' rest =>
      cases hcut : frame.cut <;> simp only [passOn, List.map_cons, List.tail_cons]
      split <;> rfl

theorem consistent_fresh (reach : Reach) : (fresh reach).Consistent :=
  ⟨List.nodup_nil, fun _ => rfl⟩

theorem Consistent.refuse {trail : Trail} (h : trail.Consistent) (depth : Nat) :
    (trail.refuse depth).Consistent := by
  constructor
  · rw [keys_refuse]
    exact h.distinct
  · intro key
    rw [active_refuse, keys_refuse]
    exact h.active key

theorem Consistent.push {trail : Trail} {key : Key} (h : trail.Consistent)
    (hnew : trail.active.get? key = none) : (trail.push key).Consistent := by
  have hkey : key ∉ trail.keys := h.get?_active_eq_none_iff.1 hnew
  constructor
  · rw [keys_push, List.nodup_cons]
    exact ⟨hkey, h.distinct⟩
  · intro key'
    rw [Trail.push, Dict.get?_insert, h.active]
    show _ = depthOf (key :: trail.keys) key'
    by_cases hk : key' = key
    · simp [depthOf, hk]
    · simp [depthOf, hk, Ne.symm hk]

theorem Consistent.pop {trail : Trail} (h : trail.Consistent) : trail.pop.Consistent := by
  cases hstack : trail.stack with
  | nil =>
    have hpop : trail.pop = trail := by simp [Trail.pop, hstack]
    rwa [hpop]
  | cons frame rest =>
    have hkeys : trail.keys = frame.key :: rest.map (·.key) := by simp [keys, hstack]
    have hdist := h.distinct
    rw [hkeys, List.nodup_cons] at hdist
    constructor
    · rw [keys_pop, hkeys, List.tail_cons]
      exact hdist.2
    · intro key
      have hactive : trail.pop.active = trail.active.erase frame.key := by simp [Trail.pop, hstack]
      rw [hactive, Dict.get?_erase, keys_pop, h.active, hkeys, List.tail_cons]
      by_cases hk : key = frame.key
      · rw [if_pos hk, hk, depthOf_eq_none_iff.2 hdist.1]
      · simp [depthOf, hk, Ne.symm hk]

theorem Consistent.popMany {trail : Trail} (h : trail.Consistent) (n : Nat) :
    (popMany n trail).Consistent := by
  induction n generalizing trail with
  | zero => exact h
  | succ n ih => exact ih h.pop

theorem Consistent.leave {trail : Trail} (h : trail.Consistent) (depth : Nat) :
    (trail.leave depth).Consistent :=
  h.popMany _

@[simp] theorem reach_leave (trail : Trail) (depth : Nat) :
    (trail.leave depth).reach = trail.reach := by
  unfold leave
  generalize trail.depth - depth = n
  induction n generalizing trail with
  | zero => rfl
  | succ n ih => rw [Trail.popMany, ih, reach_pop]

/-! ### Learning of a refusal -/

/-- A trail whose latest frame has learnt of a refusal, or of none. -/
def cutBy (trail : Trail) : Option Nat → Trail
  | none => trail
  | some depth => trail.refuse depth

@[simp] theorem cutBy_none (trail : Trail) : trail.cutBy none = trail := rfl

@[simp] theorem reach_cutBy (trail : Trail) (cut : Option Nat) :
    (trail.cutBy cut).reach = trail.reach := by
  cases cut <;> simp [cutBy]

@[simp] theorem active_cutBy (trail : Trail) (cut : Option Nat) :
    (trail.cutBy cut).active = trail.active := by
  cases cut <;> simp [cutBy]

@[simp] theorem keys_cutBy (trail : Trail) (cut : Option Nat) :
    (trail.cutBy cut).keys = trail.keys := by
  cases cut <;> simp [cutBy]

@[simp] theorem depth_cutBy (trail : Trail) (cut : Option Nat) :
    (trail.cutBy cut).depth = trail.depth := by
  cases cut <;> simp [cutBy]

theorem Consistent.cutBy {trail : Trail} (h : trail.Consistent) (cut : Option Nat) :
    (trail.cutBy cut).Consistent := by
  cases cut with
  | none => exact h
  | some depth => exact h.refuse depth

theorem refuse_refuse (trail : Trail) (first second : Nat) :
    (trail.refuse first).refuse second = trail.refuse (min first second) := by
  unfold refuse
  cases hstack : trail.stack with
  | nil => simp [hstack]
  | cons frame rest =>
    simp only [Frame.lower, Option.elim_some, Trail.mk.injEq, List.cons.injEq, Frame.mk.injEq,
      Option.some.injEq, true_and, and_true]
    cases frame.cut with
    | none => simp [Nat.min_comm]
    | some cut =>
      simp only [Option.elim_some]
      omega

theorem cutBy_cutBy (trail : Trail) (first second : Option Nat) :
    (trail.cutBy first).cutBy second = trail.cutBy (first.merge min second) := by
  cases first <;> cases second <;> simp [cutBy, Option.merge, refuse_refuse]

/-- Leaving the latest frame tells the frame below it of the least refusal that pointed further
down, and of nothing else. -/
theorem pop_cutBy_push {trail : Trail} {key : Key} (hnew : trail.active.get? key = none)
    (cut : Option Nat) :
    ((trail.push key).cutBy cut).pop = trail.cutBy (cut.filter (· < trail.depth - 1)) := by
  have hactive : (trail.active.insert key trail.depth).erase key = trail.active :=
    Dict.erase_insert hnew _
  obtain ⟨reach, stack, active⟩ := trail
  cases cut with
  | none => cases stack <;> simp_all [cutBy, pop, push, passOn]
  | some depth =>
    cases stack with
    | nil => simp_all [cutBy, pop, push, passOn, refuse, Trail.depth, Option.filter]
    | cons frame rest =>
      simp only [cutBy, refuse, push, pop, Frame.lower, Option.elim_none, passOn, Trail.depth,
        List.length_cons, Nat.add_sub_cancel] at hactive ⊢
      by_cases h : depth < rest.length <;> simp [h, hactive, Option.filter]

/-- The latest frame is final if no refusal within it pointed below it. -/
theorem isFinalAt_cutBy_push (trail : Trail) (key : Key) (cut : Option Nat) :
    ((trail.push key).cutBy cut).isFinalAt trail.depth = cut.all (trail.depth ≤ ·) := by
  cases cut with
  | none => simp [isFinalAt, frameAt, cutBy, push, Trail.depth]
  | some depth => simp [isFinalAt, frameAt, cutBy, push, refuse, Frame.lower, Trail.depth]

end Trail

/-! ### Trails of nested scopes -/

namespace Scopes

theorem consistent_closeAll {scopes : Scopes} (h : scopes.trail.Consistent) :
    scopes.closeAll.trail.Consistent := by
  obtain ⟨trail, depths⟩ := scopes
  show (depths.foldl Trail.leave trail).Consistent
  induction depths generalizing trail with
  | nil => exact h
  | cons depth depths ih => exact ih (trail.leave depth) (h.leave depth)

/-- One step keeps a trail consistent. -/
theorem consistent_step {scopes : Scopes} (h : scopes.trail.Consistent) (step : Step) :
    (scopes.step step).trail.Consistent := by
  cases step with
  | enter key =>
    cases hkey : scopes.trail.active.get? key with
    | none => simpa [Scopes.step, enter, Trail.enter, hkey] using h.push hkey
    | some depth => simpa [Scopes.step, enter, Trail.enter, hkey] using h.refuse depth
  | leave =>
    cases hdepths : scopes.depths with
    | nil => simpa [Scopes.step, hdepths] using h
    | cons depth outer => simpa [Scopes.step, hdepths] using h.leave depth
  | forget => exact h
  | unwind => exact consistent_closeAll h

theorem reach_closeAll (scopes : Scopes) : scopes.closeAll.trail.reach = scopes.trail.reach := by
  obtain ⟨trail, depths⟩ := scopes
  show (depths.foldl Trail.leave trail).reach = trail.reach
  induction depths generalizing trail with
  | nil => rfl
  | cons depth depths ih => rw [List.foldl_cons, ih, Trail.reach_leave]

theorem reach_step (scopes : Scopes) (step : Step) :
    (scopes.step step).trail.reach = scopes.trail.reach := by
  cases step with
  | enter key =>
    cases hkey : scopes.trail.active.get? key <;> simp [Scopes.step, enter, Trail.enter, hkey]
  | leave => cases hdepths : scopes.depths <;> simp [Scopes.step, hdepths]
  | forget => rfl
  | unwind => exact reach_closeAll scopes

/-- Scopes do not change what a request may look at. -/
theorem reach_run (scopes : Scopes) (steps : List Step) :
    (scopes.run steps).trail.reach = scopes.trail.reach := by
  induction steps generalizing scopes with
  | nil => rfl
  | cons step steps ih => rw [run_cons, ih, reach_step]

/-- Every trail that nested scopes bring about is consistent. -/
theorem consistent_run (reach : Reach) (steps : List Step) :
    ((fresh reach).run steps).trail.Consistent := by
  have hrun : ∀ scopes : Scopes, scopes.trail.Consistent → (scopes.run steps).trail.Consistent := by
    induction steps with
    | nil =>
      intro scopes h
      exact h
    | cons step steps ih =>
      intro scopes h
      rw [run_cons]
      exact ih (scopes.step step) (consistent_step h step)
  exact hrun _ (Trail.consistent_fresh reach)

end Scopes

end LuaTypes
