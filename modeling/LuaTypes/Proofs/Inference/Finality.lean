import LuaTypes.Proofs.Inference.Scopes

/-!
# Exactness of finality

A frame keeps one number of all refusals within it, the least depth that they pointed at, and passes
it on only if it points below the next frame. That is enough: the answer of the innermost open scope
is said to be final exactly if no refusal since the scope was entered, in it or in a scope that was
left within it, pointed below the scope.

* `Trail.IsCutBelow`: a refusal that points below a depth is known to a frame at that depth or
  above; it stays known when frames are entered and left (`Trail.isCutBelow_push`,
  `Trail.isCutBelow_refuse`, `Trail.isCutBelow_pop`);
* `Scopes.RefusesBelow`: in the course of steps an expression is refused that is under way below a
  depth;
* `Scopes.not_isFinal_iff_refusesBelow`: the answer is not final exactly if that is so.
-/

namespace LuaTypes

namespace Frame

/-- A frame has learnt of a refusal that points below a depth. -/
def IsCutBelow (depth : Nat) (frame : Frame) : Prop := ∃ cut, frame.cut = some cut ∧ cut < depth

theorem isCutBelow_lower {depth target : Nat} {frame : Frame} :
    (frame.lower target).IsCutBelow depth ↔ target < depth ∨ frame.IsCutBelow depth := by
  cases hcut : frame.cut with
  | none => simp [IsCutBelow, lower, hcut]
  | some cut =>
    simp only [IsCutBelow, lower, hcut, Option.elim_some, Option.some.injEq, exists_eq_left']
    omega

end Frame

namespace Trail

variable {trail : Trail} {depth : Nat}

/-- A frame at a depth or above it has learnt of a refusal that points below this depth. -/
def IsCutBelow (depth : Nat) (trail : Trail) : Prop :=
  ∃ frame ∈ trail.stack.take (trail.depth - depth), frame.IsCutBelow depth

theorem isCutBelow_push (key : Key) (h : depth ≤ trail.depth) :
    (trail.push key).IsCutBelow depth ↔ trail.IsCutBelow depth := by
  have hcount : (trail.push key).depth - depth = trail.depth - depth + 1 := by
    rw [depth_push]
    omega
  rw [IsCutBelow, hcount]
  simp [push, IsCutBelow, Frame.IsCutBelow]

theorem isCutBelow_refuse (target : Nat) (h : depth < trail.depth) :
    (trail.refuse target).IsCutBelow depth ↔ target < depth ∨ trail.IsCutBelow depth := by
  cases hstack : trail.stack with
  | nil => simp [Trail.depth, hstack] at h
  | cons frame rest =>
    obtain ⟨n, hn⟩ : ∃ n, trail.depth - depth = n + 1 :=
      Nat.exists_eq_succ_of_ne_zero (Nat.sub_ne_zero_of_lt h)
    rw [IsCutBelow, IsCutBelow, depth_refuse, hn]
    simp [refuse, hstack, Frame.isCutBelow_lower, or_assoc]

/-- A frame that is popped passes on what points below the depth of a frame under it. -/
theorem isCutBelow_pop (h : depth + 1 < trail.depth) :
    trail.pop.IsCutBelow depth ↔ trail.IsCutBelow depth := by
  obtain ⟨frame, next, rest, hstack⟩ : ∃ frame next rest, trail.stack = frame :: next :: rest := by
    match hstack : trail.stack with
    | [] => simp [Trail.depth, hstack] at h
    | [_] => simp [Trail.depth, hstack] at h
    | frame :: next :: rest => exact ⟨frame, next, rest, rfl⟩
  have hdepth : trail.depth = rest.length + 2 := by simp [Trail.depth, hstack]
  have hpop : trail.pop.stack = passOn frame.cut (next :: rest) := by simp [pop, hstack]
  have hcount : trail.depth - depth = rest.length - depth + 2 := by omega
  have hcount' : trail.pop.depth - depth = rest.length - depth + 1 := by
    rw [depth_pop]
    omega
  rw [IsCutBelow, IsCutBelow, hcount, hcount', hpop, hstack]
  cases hcut : frame.cut with
  | none => simp [passOn, Frame.IsCutBelow, hcut]
  | some cut =>
    have hframe : frame.IsCutBelow depth ↔ cut < depth := by simp [Frame.IsCutBelow, hcut]
    by_cases hpass : cut < rest.length
    · simp [passOn, hpass, Frame.isCutBelow_lower, hframe, or_assoc]
    · have hnot : ¬cut < depth := by omega
      simp [passOn, hpass, hframe, hnot]

/-- The latest frame is not final if it has learnt of a refusal that points below it. -/
theorem isFinalAt_eq_false_iff (h : trail.depth = depth + 1) :
    trail.isFinalAt depth = false ↔ trail.IsCutBelow depth := by
  cases hstack : trail.stack with
  | nil => simp [Trail.depth, hstack] at h
  | cons frame rest =>
    have hlength : rest.length = depth := by simpa [Trail.depth, hstack] using h
    have hframe : trail.frameAt depth = some frame := by simp [frameAt, hstack, ← hlength]
    have hcount : trail.depth - depth = 1 := by omega
    rw [IsCutBelow, hcount, hstack]
    cases hcut : frame.cut <;> simp [isFinalAt, hframe, Frame.IsCutBelow, hcut]

end Trail

namespace Scopes

/-- Whether a step enters a scope or leaves the innermost one, as scopes nest properly. -/
def Step.isNesting : Step → Bool
  | .enter _ | .leave => true
  | .forget | .unwind => false

/-- In the course of steps an expression is refused that is under way below a depth. -/
def RefusesBelow (scopes : Scopes) (steps : List Step) (depth : Nat) : Prop :=
  ∃ done key target, done ++ [.enter key] <+: steps ∧
    (scopes.run done).trail.active.get? key = some target ∧ target < depth

theorem refusesBelow_nil {scopes : Scopes} {depth : Nat} : ¬scopes.RefusesBelow [] depth := by
  rintro ⟨done, key, target, hbegins, -⟩
  simp at hbegins

theorem refusesBelow_concat {scopes : Scopes} {steps : List Step} {step : Step} {depth : Nat} :
    scopes.RefusesBelow (steps ++ [step]) depth ↔
      scopes.RefusesBelow steps depth ∨ ∃ key target, step = .enter key ∧
        (scopes.run steps).trail.active.get? key = some target ∧ target < depth := by
  constructor
  · rintro ⟨done, key, target, hbegins, hrefused⟩
    rcases List.prefix_concat_iff.1 hbegins with heq | hbegins
    · obtain ⟨rfl, hstep⟩ := List.append_inj' heq rfl
      cases hstep
      exact Or.inr ⟨key, target, rfl, hrefused⟩
    · exact Or.inl ⟨done, key, target, hbegins, hrefused⟩
  · rintro (⟨done, key, target, hbegins, hrefused⟩ | ⟨key, target, rfl, hrefused⟩)
    · exact ⟨done, key, target, hbegins.trans (List.prefix_append _ _), hrefused⟩
    · exact ⟨steps, key, target, List.prefix_refl _, hrefused⟩

/-- So many scopes are open within others, and each frame on top of theirs belongs to one of
them. -/
structure IsNested (outside : Scopes) (count : Nat) (scopes : Scopes) : Prop where
  depth : scopes.trail.depth = outside.trail.depth + count
  depths : scopes.depths = (List.range' outside.trail.depth count).reverse ++ outside.depths

namespace IsNested

variable {outside scopes : Scopes} {count : Nat}

theorem self (outside : Scopes) : outside.IsNested 0 outside := ⟨rfl, rfl⟩

theorem length_depths (h : outside.IsNested count scopes) :
    scopes.depths.length = outside.depths.length + count := by
  simp [h.depths, Nat.add_comm]

theorem push (h : outside.IsNested count scopes) (key : Key) :
    outside.IsNested (count + 1) ⟨scopes.trail.push key, scopes.trail.depth :: scopes.depths⟩ := by
  constructor
  · simp only [Trail.depth_push, h.depth]
    omega
  · simp [h.depth, h.depths, List.range'_concat]

theorem refuse (h : outside.IsNested count scopes) (target : Nat) :
    outside.IsNested count ⟨scopes.trail.refuse target, scopes.depths⟩ :=
  ⟨by rw [Trail.depth_refuse, h.depth], h.depths⟩

/-- Leaving the innermost scope takes its own frame away and no other. -/
theorem step_leave (h : outside.IsNested (count + 1) scopes) :
    scopes.step .leave =
      ⟨scopes.trail.pop, (List.range' outside.trail.depth count).reverse ++ outside.depths⟩ := by
  have hdepths : scopes.depths = (outside.trail.depth + count) ::
      ((List.range' outside.trail.depth count).reverse ++ outside.depths) := by
    simp [h.depths, List.range'_concat]
  simp only [Scopes.step, hdepths]
  rw [Trail.leave_of_depth_eq (by rw [h.depth]; omega)]

theorem leave (h : outside.IsNested (count + 1) scopes) :
    outside.IsNested count (scopes.step .leave) := by
  rw [h.step_leave]
  exact ⟨by rw [Trail.depth_pop, h.depth]; rfl, rfl⟩

end IsNested

/-- A nesting step within a scope tells the frames from that scope on of what it refuses, and loses
nothing that they know of. -/
theorem isNested_step {outside scopes : Scopes} {count : Nat} {step : Step}
    (h : outside.IsNested count scopes) (hcount : 0 < count) (hnests : step.isNesting = true)
    (hopen : outside.depths.length < (scopes.step step).depths.length) :
    (∃ count, 0 < count ∧ outside.IsNested count (scopes.step step)) ∧
      ((scopes.step step).trail.IsCutBelow outside.trail.depth ↔
        scopes.trail.IsCutBelow outside.trail.depth ∨ ∃ key target, step = .enter key ∧
          scopes.trail.active.get? key = some target ∧ target < outside.trail.depth) := by
  have hdepth := h.depth
  cases step with
  | forget => cases hnests
  | unwind => cases hnests
  | enter key =>
    cases hkey : scopes.trail.active.get? key with
    | none =>
      simp only [Scopes.step, enter_of_new hkey]
      refine ⟨⟨count + 1, Nat.succ_pos _, h.push key⟩, ?_⟩
      rw [Trail.isCutBelow_push key (by omega)]
      simp [hkey]
    | some target =>
      simp only [Scopes.step, enter_of_active hkey]
      refine ⟨⟨count, hcount, h.refuse target⟩, ?_⟩
      rw [Trail.isCutBelow_refuse target (by omega)]
      simp [hkey, or_comm]
  | leave =>
    obtain ⟨n, rfl⟩ := Nat.exists_eq_succ_of_ne_zero hcount.ne'
    have hlength := h.leave.length_depths
    refine ⟨⟨n, by omega, h.leave⟩, ?_⟩
    rw [h.step_leave, Trail.isCutBelow_pop (by omega)]
    simp

/-- In the course of nesting steps within a scope, the frames from that scope on know of a refusal
that points below it exactly if there was one. -/
theorem isNested_run {outside opened : Scopes} (h : outside.IsNested 1 opened)
    (hcut : ¬opened.trail.IsCutBelow outside.trail.depth) {steps : List Step}
    (hnests : ∀ step ∈ steps, step.isNesting = true) (hopen : opened.KeepsOpen steps) :
    (∃ count, 0 < count ∧ outside.IsNested count (opened.run steps)) ∧
      ((opened.run steps).trail.IsCutBelow outside.trail.depth ↔
        opened.RefusesBelow steps outside.trail.depth) := by
  induction steps using List.reverseRecOn with
  | nil => exact ⟨⟨1, Nat.one_pos, h⟩, iff_of_false hcut refusesBelow_nil⟩
  | append_singleton steps step ih =>
    have hinit : ∀ other ∈ steps, other.isNesting = true := fun other hother =>
      hnests other (List.mem_append_left _ hother)
    obtain ⟨⟨count, hcount, hnested⟩, hknown⟩ := ih hinit (hopen.mono (List.prefix_append _ _))
    have hlast := hopen.length_le
    rw [h.length_depths, run_concat] at hlast
    obtain ⟨hnext, hlearns⟩ := isNested_step hnested hcount (hnests step (by simp)) (by omega)
    rw [run_concat, refusesBelow_concat, hlearns, hknown]
    exact ⟨hnext, Iff.rfl⟩

/-- Whatever has happened before a scope is entered, and whatever is entered and left within it: the
answer of the scope is not final exactly if an expression was refused since it was entered, in it or
in a scope that was left within it, that is under way below it. -/
theorem not_isFinal_iff_refusesBelow (reach : Reach) (before within : List Step) (key : Key) :
    let outside := (fresh reach).run before
    let opened := (outside.enter key).1
    (outside.enter key).2 = true → (∀ step ∈ within, step.isNesting = true) →
      opened.KeepsOpen within → (opened.run within).depths.length = opened.depths.length →
        ∃ answer, (opened.run within).isFinal? = some answer ∧
          (answer = false ↔ opened.RefusesBelow within outside.trail.depth) := by
  intro outside opened haccepted hnests hopen hcurrent
  have hnew := enter_accepted_iff.1 haccepted
  have hopened : opened = ⟨outside.trail.push key, outside.trail.depth :: outside.depths⟩ := by
    simp only [opened, enter_of_new hnew]
  have hnested : outside.IsNested 1 opened := by
    rw [hopened]
    exact (IsNested.self outside).push key
  have hcut : ¬opened.trail.IsCutBelow outside.trail.depth := by
    rw [hopened, Trail.isCutBelow_push key (Nat.le_refl _)]
    simp [Trail.IsCutBelow]
  obtain ⟨⟨count, -, hinside⟩, hknown⟩ := isNested_run hnested hcut hnests hopen
  -- the scope is the innermost one again, so that no frame lies above its own
  have hone : count = 1 := by
    rw [hinside.length_depths, hnested.length_depths] at hcurrent
    omega
  subst hone
  refine ⟨_, by simp only [isFinal?, hinside.depths]; rfl, ?_⟩
  rw [Trail.isFinalAt_eq_false_iff hinside.depth, hknown]

/-- A refusal that points below a scope counts, though it came in a scope that was left since; one
that points at the scope itself does not. -/
theorem not_isFinal_of_nested_refusal :
    let name (start : Nat) : Key := ⟨0, .nameExpr, start, 1⟩
    let within : List Step :=
      [.enter (name 2), .enter (name 3), .enter (name 0), .leave, .enter (name 2)]
    let opened := (((fresh .full).run [.enter (name 0), .enter (name 1)]).enter (name 2)).1
    (((fresh .full).run [.enter (name 0), .enter (name 1)]).enter (name 2)).2 = true ∧
      (∀ step ∈ within, step.isNesting = true) ∧ opened.KeepsOpen within ∧
      (opened.run within).depths.length = opened.depths.length ∧
      (opened.run within).isFinal? = some false ∧ opened.RefusesBelow within 2 ∧
      (opened.run [.enter (name 2)]).isFinal? = some true := by
  intro name within opened
  have haccepted :
      (((fresh .full).run [.enter (name 0), .enter (name 1)]).enter (name 2)).2 = true := by
    decide
  have hnests : ∀ step ∈ within, step.isNesting = true := by decide
  have hopen : opened.KeepsOpen within := by decide
  have hcurrent : (opened.run within).depths.length = opened.depths.length := by decide
  have hfinal : (opened.run within).isFinal? = some false := by decide
  obtain ⟨answer, hanswer, hiff⟩ := not_isFinal_iff_refusesBelow .full
    [.enter (name 0), .enter (name 1)] within (name 2) haccepted hnests hopen hcurrent
  have hfalse : answer = false := Option.some.inj (hanswer.symm.trans hfinal)
  exact ⟨haccepted, hnests, hopen, hcurrent, hfinal, hiff.1 hfalse, by decide⟩

end Scopes

end LuaTypes
