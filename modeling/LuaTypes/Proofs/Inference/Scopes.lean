import LuaTypes.Proofs.Inference.Trail
import Mathlib.Data.List.Infix

/-!
# Leaving scopes

A scope puts a frame on the trail, and whatever is entered within it lies above that frame. So when
the scope is left, be it in due course or by a failure, the frames are again those that were there
when it was entered; the frames of scopes that were forgotten within it go with it.

* `Trail.IsAbove`: a trail with frames of its own on top of another one's;
  `Trail.IsAbove.leave_base`: what leaving them all restores;
* `Scopes.KeepsOpen`: steps that do not close the innermost open scope;
* `Scopes.IsWithin`: what such steps keep of the scopes outside (`Scopes.isWithin_run`);
* `Scopes.run_invariant`: stack and map of a trail agree after all steps, and scopes that are left
  restore the stack.
-/

namespace LuaTypes

/-- On a stack without repetitions, the depth of a key is its index, counted from the bottom. -/
theorem depthOf_eq_some_iff {keys : List Key} (h : keys.Nodup) {key : Key} {depth : Nat} :
    depthOf keys key = some depth ↔ keys.reverse[depth]? = some key := by
  induction keys with
  | nil => simp [depthOf]
  | cons k below ih =>
    obtain ⟨hk, hbelow⟩ := List.nodup_cons.1 h
    rw [List.reverse_cons, List.getElem?_append, List.length_reverse]
    by_cases hkey : k = key
    · subst hkey
      simp only [depthOf, if_true, Option.some.injEq]
      split
      · next hlt =>
        have hne : below.reverse[depth]? ≠ some k := fun hget =>
          hk (List.mem_reverse.1 (List.mem_of_getElem? hget))
        simp only [hne, iff_false]
        omega
      · next hge =>
        simp only [List.getElem?_singleton]
        split <;> simp <;> omega
    · simp only [depthOf, hkey, if_false, ih hbelow]
      split
      · rfl
      · next hge =>
        have hnone : below.reverse[depth]? = none := by simpa using hge
        simp only [hnone, List.getElem?_singleton]
        split <;> simp [hkey]

namespace Trail

@[simp] theorem keys_passOn (cut : Option Nat) (frames : List Frame) :
    (passOn cut frames).map (·.key) = frames.map (·.key) := by
  cases frames with
  | nil => rfl
  | cons frame rest =>
    cases cut with
    | none => rfl
    | some depth =>
      simp only [passOn]
      split <;> rfl

@[simp] theorem tail_passOn (cut : Option Nat) (frames : List Frame) :
    (passOn cut frames).tail = frames.tail := by
  cases frames with
  | nil => rfl
  | cons frame rest => cases cut <;> rfl

theorem popMany_succ (n : Nat) (trail : Trail) : popMany (n + 1) trail = (popMany n trail).pop := by
  induction n generalizing trail with
  | zero => rfl
  | succ n ih => exact ih trail.pop

@[simp] theorem depth_popMany (n : Nat) (trail : Trail) :
    (popMany n trail).depth = trail.depth - n := by
  induction n with
  | zero => rfl
  | succ n ih => rw [popMany_succ, depth_pop, ih, Nat.sub_sub]

/-- A trail with frames of its own on top of another one's. -/
structure IsAbove (trail base : Trail) : Prop where
  frames : base.stack <:+ trail.stack
  deeper : base.depth < trail.depth

namespace IsAbove

variable {trail base : Trail}

theorem push (base : Trail) (key : Key) : (base.push key).IsAbove base :=
  ⟨List.suffix_cons _ _, Nat.lt_succ_self _⟩

/-- The latest frame is one of a trail's own. -/
theorem exists_cons (h : trail.IsAbove base) :
    ∃ frame rest, trail.stack = frame :: rest ∧ base.stack <:+ rest := by
  obtain ⟨hframes, hdeeper⟩ := h
  cases hstack : trail.stack with
  | nil => simp [Trail.depth, hstack] at hdeeper
  | cons frame rest =>
    refine ⟨frame, rest, rfl, ?_⟩
    rw [hstack] at hframes
    rcases List.suffix_cons_iff.1 hframes with heq | hrest
    · simp [Trail.depth, heq, hstack] at hdeeper
    · exact hrest

theorem push_push (h : trail.IsAbove base) (key : Key) : (trail.push key).IsAbove base :=
  ⟨h.frames.trans (List.suffix_cons _ _), Nat.lt_succ_of_lt h.deeper⟩

theorem refuse (h : trail.IsAbove base) (depth : Nat) : (trail.refuse depth).IsAbove base := by
  obtain ⟨frame, rest, hstack, hrest⟩ := h.exists_cons
  constructor
  · simp only [Trail.refuse, hstack]
    exact hrest.trans (List.suffix_cons _ _)
  · rw [depth_refuse]
    exact h.deeper

theorem pop (h : trail.IsAbove base) (hdepth : base.depth < trail.depth - 1) :
    trail.pop.IsAbove base := by
  obtain ⟨frame, rest, hstack, hrest⟩ := h.exists_cons
  constructor
  · cases rest with
    | nil => simp [Trail.depth, hstack] at hdepth
    | cons next rest =>
      -- what is passed on changes the next frame, which does not belong to the other trail
      have hbelow : base.stack <:+ rest := by
        rcases List.suffix_cons_iff.1 hrest with heq | hrest
        · simp [Trail.depth, hstack, heq] at hdepth
        · exact hrest
      have htail : trail.pop.stack.tail = rest := by simp [Trail.pop, hstack]
      rw [← htail] at hbelow
      exact hbelow.trans (List.tail_suffix _)
  · rwa [depth_pop]

theorem popMany (h : trail.IsAbove base) {n : Nat} (hn : base.depth < trail.depth - n) :
    (popMany n trail).IsAbove base := by
  induction n with
  | zero => exact h
  | succ n ih =>
    rw [popMany_succ]
    apply (ih (by omega)).pop
    rw [depth_popMany]
    omega

theorem leave (h : trail.IsAbove base) {depth : Nat} (hdepth : base.depth < depth) :
    (trail.leave depth).IsAbove base := by
  have hdeeper := h.deeper
  exact h.popMany (by omega)

/-- Where a trail has a single frame of its own, the frames below it stay when it is popped, though
the latest of them may learn of a refusal. -/
theorem pop_base (h : trail.IsAbove base) (hdepth : trail.depth = base.depth + 1) :
    ∃ cut, trail.pop.stack = passOn cut base.stack := by
  obtain ⟨frame, rest, hstack, hrest⟩ := h.exists_cons
  have hlength : base.stack.length = rest.length := by
    simp only [Trail.depth, hstack, List.length_cons] at hdepth
    omega
  refine ⟨frame.cut, ?_⟩
  simp [Trail.pop, hstack, hrest.eq_of_length hlength]

/-- Leaving all frames of its own restores the keys of the other trail, and its frames but for what
the latest of them has learnt of refusals. -/
theorem leave_base (h : trail.IsAbove base) :
    (trail.leave base.depth).keys = base.keys ∧
      (trail.leave base.depth).stack.tail = base.stack.tail := by
  obtain ⟨n, hn⟩ : ∃ n, trail.depth - base.depth = n + 1 :=
    Nat.exists_eq_succ_of_ne_zero (Nat.sub_ne_zero_of_lt h.deeper)
  have habove : (Trail.popMany n trail).IsAbove base := h.popMany (by omega)
  obtain ⟨cut, hstack⟩ := habove.pop_base (by rw [depth_popMany]; omega)
  rw [Trail.leave, hn, popMany_succ, keys, hstack]
  exact ⟨keys_passOn cut _, tail_passOn cut _⟩

end IsAbove

/-- The map holds the index of every frame, and nothing else. -/
theorem Consistent.get?_active_iff {trail : Trail} (h : trail.Consistent) {key : Key}
    {depth : Nat} :
    trail.active.get? key = some depth ↔ (trail.frameAt depth).map (·.key) = some key := by
  rw [h.active, depthOf_eq_some_iff h.distinct, keys, frameAt, ← List.map_reverse,
    List.getElem?_map]

end Trail

namespace Scopes

theorem enter_of_new {scopes : Scopes} {key : Key} (h : scopes.trail.active.get? key = none) :
    scopes.enter key = (⟨scopes.trail.push key, scopes.trail.depth :: scopes.depths⟩, true) := by
  simp [enter, Trail.enter, h]

theorem enter_of_active {scopes : Scopes} {key : Key} {depth : Nat}
    (h : scopes.trail.active.get? key = some depth) :
    scopes.enter key = (⟨scopes.trail.refuse depth, scopes.depths⟩, false) := by
  simp [enter, Trail.enter, h]

theorem enter_accepted_iff {scopes : Scopes} {key : Key} :
    (scopes.enter key).2 = true ↔ scopes.trail.active.get? key = none := by
  cases h : scopes.trail.active.get? key with
  | none => simp [enter_of_new h]
  | some depth => simp [enter_of_active h]

/-- The innermost open scope stays open: at no moment of the steps there are fewer open scopes than
at their beginning. -/
def KeepsOpen (scopes : Scopes) (steps : List Step) : Prop :=
  ∀ done, done <+: steps → scopes.depths.length ≤ (scopes.run done).depths.length

instance (scopes : Scopes) (steps : List Step) : Decidable (scopes.KeepsOpen steps) :=
  decidable_of_iff
    (∀ done ∈ steps.inits, scopes.depths.length ≤ (scopes.run done).depths.length) (by
      simp only [List.mem_inits, KeepsOpen])

theorem KeepsOpen.mono {scopes : Scopes} {steps more : List Step} (h : scopes.KeepsOpen more)
    (hbegins : steps <+: more) : scopes.KeepsOpen steps :=
  fun done hdone => h done (hdone.trans hbegins)

theorem KeepsOpen.length_le {scopes : Scopes} {steps : List Step} (h : scopes.KeepsOpen steps) :
    scopes.depths.length ≤ (scopes.run steps).depths.length :=
  h steps (List.prefix_refl steps)

theorem run_concat (scopes : Scopes) (steps : List Step) (step : Step) :
    scopes.run (steps ++ [step]) = (scopes.run steps).step step := by
  rw [run_append, run_cons, run_nil]

/-- Scopes within one that was entered outside: its frame is on the trail, and the scopes opened
since then lie above it. -/
structure IsWithin (outside scopes : Scopes) : Prop where
  above : scopes.trail.IsAbove outside.trail
  depths : ∃ inner, scopes.depths = inner ++ outside.trail.depth :: outside.depths ∧
    ∀ depth ∈ inner, outside.trail.depth < depth

theorem isWithin_enter {outside : Scopes} {key : Key}
    (h : outside.trail.active.get? key = none) : outside.IsWithin (outside.enter key).1 := by
  rw [enter_of_new h]
  exact ⟨.push _ key, [], rfl, by simp⟩

/-- A step that does not close the scope keeps within it. -/
theorem isWithin_step {outside scopes : Scopes} (h : outside.IsWithin scopes) {step : Step}
    (hopen : outside.depths.length < (scopes.step step).depths.length) :
    outside.IsWithin (scopes.step step) := by
  obtain ⟨habove, inner, hdepths, hinner⟩ := h
  cases step with
  | enter key =>
    cases hkey : scopes.trail.active.get? key with
    | none =>
      simp only [Scopes.step, enter_of_new hkey]
      refine ⟨habove.push_push key, scopes.trail.depth :: inner, by simp [hdepths], ?_⟩
      intro depth hdepth
      rcases List.mem_cons.1 hdepth with rfl | hdepth
      · exact habove.deeper
      · exact hinner depth hdepth
    | some depth =>
      simp only [Scopes.step, enter_of_active hkey]
      exact ⟨habove.refuse depth, inner, hdepths, hinner⟩
  | leave =>
    cases inner with
    | nil => simp [Scopes.step, hdepths] at hopen
    | cons depth inner =>
      simp only [List.cons_append] at hdepths
      simp only [Scopes.step, hdepths]
      exact ⟨habove.leave (hinner depth List.mem_cons_self), inner, rfl,
        fun i hi => hinner i (List.mem_cons_of_mem _ hi)⟩
  | forget =>
    cases inner with
    | nil => simp [Scopes.step, hdepths] at hopen
    | cons depth inner =>
      exact ⟨habove, inner, by simp [Scopes.step, hdepths],
        fun i hi => hinner i (List.mem_cons_of_mem _ hi)⟩
  | unwind => simp [Scopes.step, closeAll] at hopen

/-- Steps that do not close the scope keep within it. -/
theorem isWithin_run {outside opened : Scopes} (h : outside.IsWithin opened)
    (hlength : opened.depths.length = outside.depths.length + 1) {steps : List Step}
    (hopen : opened.KeepsOpen steps) : outside.IsWithin (opened.run steps) := by
  induction steps using List.reverseRecOn with
  | nil => exact h
  | append_singleton steps step ih =>
    have hlast := hopen.length_le
    rw [run_concat] at hlast ⊢
    exact isWithin_step (ih (hopen.mono (List.prefix_append _ _))) (by omega)

/-- What is open and on the stack is what was so before, though the latest frame may have learnt of
refusals. -/
structure Restores (left outside : Scopes) : Prop where
  depths : left.depths = outside.depths
  keys : left.trail.keys = outside.trail.keys
  earlier : left.trail.stack.tail = outside.trail.stack.tail

/-- Leaving the scopes opened within a scope, and then that scope, restores what was outside. -/
theorem IsWithin.leaves {outside scopes : Scopes} (h : outside.IsWithin scopes) :
    Restores
      (scopes.run (.replicate (scopes.depths.length - outside.depths.length) .leave)) outside := by
  obtain ⟨habove, inner, hdepths, hinner⟩ := h
  have hcount : scopes.depths.length - outside.depths.length = inner.length + 1 := by
    simp only [hdepths, List.length_append, List.length_cons]
    omega
  rw [hcount]
  clear hcount
  induction inner generalizing scopes with
  | nil =>
    have hleave : scopes.step .leave =
        ⟨scopes.trail.leave outside.trail.depth, outside.depths⟩ := by
      simp [Scopes.step, hdepths]
    show Restores (scopes.step .leave) outside
    rw [hleave]
    obtain ⟨hkeys, htail⟩ := habove.leave_base
    exact ⟨rfl, hkeys, htail⟩
  | cons depth inner ih =>
    simp only [List.cons_append] at hdepths
    rw [List.length_cons, List.replicate_succ, run_cons]
    apply ih
    · simp only [Scopes.step, hdepths]
      exact habove.leave (hinner depth List.mem_cons_self)
    · simp [Scopes.step, hdepths]
    · exact fun i hi => hinner i (List.mem_cons_of_mem _ hi)

/-- A failure leaves the open scopes one after the other. -/
theorem unwind_run_leaves (n : Nat) (scopes : Scopes) :
    (scopes.run (.replicate n .leave)).step .unwind = scopes.step .unwind := by
  induction n generalizing scopes with
  | zero => rfl
  | succ n ih =>
    rw [List.replicate_succ, run_cons, ih]
    cases hdepths : scopes.depths with
    | nil => simp [Scopes.step, hdepths]
    | cons depth outer => simp [Scopes.step, closeAll, hdepths]

/-- After all steps, no key is on the stack twice and the map of depths holds the index of every
frame and nothing else, so that exactly the keys on the stack are refused. And wherever a scope is
entered, the stack is restored when it is left, and on the way of a failure through the scopes. -/
theorem run_invariant (reach : Reach) (steps : List Step) :
    let scopes := (fresh reach).run steps
    scopes.trail.keys.Nodup ∧
    (∀ key depth, scopes.trail.active.get? key = some depth ↔
      (scopes.trail.frameAt depth).map (·.key) = some key) ∧
    (∀ key, (scopes.enter key).2 = false ↔ key ∈ scopes.trail.keys) ∧
    ∀ key within, (scopes.enter key).2 = true → (scopes.enter key).1.KeepsOpen within →
      let inside := (scopes.enter key).1.run within
      let left := inside.run (.replicate (inside.depths.length - scopes.depths.length) .leave)
      left.Restores scopes ∧ left.step .unwind = inside.step .unwind ∧
        (inside.depths.length = (scopes.enter key).1.depths.length → left = inside.step .leave) := by
  have htrail := consistent_run reach steps
  generalize (fresh reach).run steps = scopes at htrail
  refine ⟨htrail.distinct, fun key depth => htrail.get?_active_iff, fun key => ?_, ?_⟩
  · rw [← Bool.not_eq_true, enter_accepted_iff, htrail.get?_active_eq_none_iff, not_not]
  · intro key within haccepted hopen
    have hnew := enter_accepted_iff.1 haccepted
    have hlength : (scopes.enter key).1.depths.length = scopes.depths.length + 1 := by
      simp [enter_of_new hnew]
    have hwithin := isWithin_run (isWithin_enter hnew) hlength hopen
    refine ⟨hwithin.leaves, unwind_run_leaves _ _, fun hcurrent => ?_⟩
    have hone : ((scopes.enter key).1.run within).depths.length - scopes.depths.length = 1 := by
      omega
    rw [hone]
    rfl

/-- Two scopes that are left after others were forgotten below and within them: of five frames the
two remain that were there before. -/
theorem run_invariant_forgotten :
    let name (start : Nat) : Key := ⟨0, .nameExpr, start, 1⟩
    let within : List Step := [.enter (name 3), .forget, .enter (name 0), .enter (name 4)]
    let scopes := (fresh .full).run [.enter (name 0), .enter (name 1), .forget]
    let inside := (scopes.enter (name 2)).1.run within
    (scopes.enter (name 2)).2 = true ∧ (scopes.enter (name 2)).1.KeepsOpen within ∧
      inside.trail.keys = [name 4, name 3, name 2, name 1, name 0] ∧
      (inside.run [.leave, .leave]).Restores scopes := by
  intro name within scopes inside
  have haccepted : (scopes.enter (name 2)).2 = true := by decide
  have hopen : (scopes.enter (name 2)).1.KeepsOpen within := by decide
  have hkeys : inside.trail.keys = [name 4, name 3, name 2, name 1, name 0] := by decide
  have hcount : inside.depths.length - scopes.depths.length = 2 := by decide
  obtain ⟨-, -, -, hscopes⟩ := run_invariant .full [.enter (name 0), .enter (name 1), .forget]
  have hrestores : Restores
      (inside.run (.replicate (inside.depths.length - scopes.depths.length) .leave)) scopes :=
    (hscopes (name 2) within haccepted hopen).1
  rw [hcount] at hrestores
  exact ⟨haccepted, hopen, hkeys, hrestores⟩

end Scopes

end LuaTypes
