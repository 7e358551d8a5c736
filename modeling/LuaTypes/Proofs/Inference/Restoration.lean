import LuaTypes.Proofs.Inference.Course

/-!
# What a request leaves of its trail

A request may be made within an ongoing one, on a trail that has frames already. Whichever store
keeps the types, and however the request ends, its own frames are gone afterwards and the others are
what they were, except that the latest of them may have learnt of refusals. It is cut short by them
just if an expression was refused whose frame lies further down.

* `Course.Leaves`: what a course leaves of its trail; `Inquiry.course_leaves`, `Store.visit_leaves`:
  an inquiry, and a visit, leave what their questions leave;
* `Store.ask_restores`: what every request leaves, and that it shows in no request that follows on
  a trail without frames.
-/

namespace LuaTypes

/-! ### The latest frame -/

namespace Trail

@[simp] theorem tail_cutBy (trail : Trail) (cut : Option Nat) :
    (trail.cutBy cut).stack.tail = trail.stack.tail := by
  cases cut with
  | none => rfl
  | some depth =>
    rw [cutBy, refuse]
    split <;> simp_all

theorem cutBy_of_nil {trail : Trail} (h : trail.stack = []) (cut : Option Nat) :
    trail.cutBy cut = trail := by
  cases cut <;> simp [cutBy, refuse, h]

/-- A consistent trail without frames is one of a request that has not begun. -/
theorem Consistent.eq_fresh {trail : Trail} (htrail : trail.Consistent) (h : trail.stack = []) :
    trail = .fresh trail.reach := by
  obtain ⟨reach, stack, active⟩ := trail
  cases h
  have hnone : ∀ key, active.get? key = none := fun key => htrail.active key
  have hentries : active.entries = [] := by
    refine List.eq_nil_iff_forall_not_mem.2 fun entry hentry => ?_
    exact (active.get?_eq_none_iff entry.1).1 (hnone entry.1) (List.mem_map_of_mem hentry)
  rw [fresh, Dict.ext_entries (hentries.trans rfl : active.entries = Dict.empty.entries)]

/-- The latest frame stays final if it learns of no refusal that points below it. -/
theorem isFinalAt_cutBy {trail : Trail} {top : Nat} (h : trail.depth = top + 1)
    (cut : Option Nat) :
    (trail.cutBy cut).isFinalAt top = (trail.isFinalAt top && cut.all (top ≤ ·)) := by
  obtain ⟨reach, stack, active⟩ := trail
  cases stack with
  | nil => cases h
  | cons frame rest =>
    have htop : top = rest.length := (Nat.succ.inj h).symm
    subst htop
    cases cut with
    | none => simp [cutBy]
    | some depth =>
      cases hcut : frame.cut <;>
        simp [cutBy, refuse, isFinalAt, frameAt, Frame.lower, hcut, Bool.and_comm]

/-- The keys below the latest frame are those whose depth is less than the latest one. -/
theorem Consistent.mem_tail_keys_iff {trail : Trail} (htrail : trail.Consistent) {top : Nat}
    (h : trail.depth = top + 1) {key : Key} :
    key ∈ trail.keys.tail ↔ ∃ depth < top, trail.active.get? key = some depth := by
  rw [← length_keys] at h
  have hdistinct := htrail.distinct
  simp only [htrail.active]
  cases hkeys : trail.keys with
  | nil => rw [hkeys] at h; cases h
  | cons first below =>
    rw [hkeys] at h hdistinct
    have htop : top = below.length := (Nat.succ.inj h).symm
    subst htop
    rw [List.tail_cons, depthOf]
    by_cases hfirst : first = key
    · rw [if_pos hfirst, ← hfirst]
      simp [(List.nodup_cons.1 hdistinct).1]
    · rw [if_neg hfirst]
      constructor
      · intro hmem
        obtain ⟨depth, hdepth⟩ : ∃ depth, depthOf below key = some depth :=
          Option.ne_none_iff_exists'.1 fun hnone => depthOf_eq_none_iff.1 hnone hmem
        exact ⟨depth, depthOf_lt hdepth, hdepth⟩
      · rintro ⟨depth, -, hdepth⟩
        by_contra hnot
        rw [depthOf_eq_none_iff.2 hnot] at hdepth
        cases hdepth

end Trail

theorem Option.any_merge_min (a b : Option Nat) (n : Nat) :
    (a.merge min b).any (· < n) = (a.any (· < n) || b.any (· < n)) := by
  cases a <;> cases b <;> simp [Option.merge]

/-! ### What a course leaves -/

/-- A course leaves its trail as it was, but that the latest frame may have learnt of refusals. It
has learnt of one that points below a depth, up to its own, just if an expression was refused whose
frame lies below that depth. -/
def Course.Leaves {σ α : Type} (course : Course σ α) (trail : Trail) : Prop :=
  ∃ cut, course.trail = trail.cutBy cut ∧ ∀ n < trail.depth, cut.any (· < n) = true ↔
    ∃ key ∈ course.refused, ∃ depth < n, trail.active.get? key = some depth

namespace Course.Leaves

variable {σ α β : Type} {trail : Trail}

theorem unchanged (outcome : Outcome α) (trail : Trail) (s : σ) :
    (Course.mk outcome trail s [] []).Leaves trail :=
  ⟨none, rfl, by simp⟩

theorem andThen {first : Course σ α} {next : α → Trail → σ → Course σ β} (h : first.Leaves trail)
    (hnext : ∀ a, (next a first.trail first.store).Leaves first.trail) :
    (first.andThen next).Leaves trail := by
  obtain ⟨cut, htrail, hcut⟩ := h
  rw [Course.andThen]
  cases first.outcome with
  | failed foreign => exact ⟨cut, htrail, hcut⟩
  | exhausted => exact ⟨cut, htrail, hcut⟩
  | value a =>
    obtain ⟨later, hlater, hlaterCut⟩ := hnext a
    refine ⟨cut.merge min later, ?_, ?_⟩
    · rw [← Trail.cutBy_cutBy, ← htrail]
      exact hlater
    · intro n hn
      have hrest := hlaterCut n (by rw [htrail]; simpa using hn)
      rw [htrail, Trail.active_cutBy] at hrest
      simp only [Option.any_merge_min, Bool.or_eq_true, hcut n hn, List.mem_append, or_and_right,
        exists_or]
      rw [← htrail] at hrest
      rw [hrest]

end Course.Leaves

/-- An inquiry leaves what its questions leave. -/
theorem Inquiry.course_leaves {σ α : Type} {find : Course.Finder σ}
    (h : ∀ e {trail : Trail} s, trail.Consistent → (find e trail s).Leaves trail)
    (inquiry : Inquiry α) {trail : Trail} (s : σ) (htrail : trail.Consistent) :
    (inquiry.course find trail s).Leaves trail := by
  induction inquiry generalizing trail s with
  | done value => exact .unchanged _ _ _
  | fail foreign => exact .unchanged _ _ _
  | ask e next ih =>
    have hfirst := h e s htrail
    refine hfirst.andThen fun ty => ih ty _ ?_
    obtain ⟨cut, hcut, -⟩ := hfirst
    rw [hcut]
    exact htrail.cutBy cut

namespace Store

variable {σ : Type} (store : Store σ)

/-- A frame of its own is taken away, however the expression's course ends. -/
theorem visit_leaves {find : Course.Finder σ}
    (h : ∀ e {trail : Trail} s, trail.Consistent → (find e trail s).Leaves trail)
    (e : Filed Expr) {trail : Trail} (s : σ) (htrail : trail.Consistent) :
    (store.visit find e trail s).Leaves trail := by
  simp only [visit]
  split
  · exact .unchanged _ _ _
  · exact .unchanged _ _ _
  · next s' _ =>
    cases hkey : trail.active.get? (Expr.key e) with
    | some depth =>
      simp only [Trail.enter, hkey]
      exact ⟨some depth, rfl, fun n _ => by simp [hkey]⟩
    | none =>
      simp only [Trail.enter, hkey]
      obtain ⟨cut, hinside, hcut⟩ := h e s' (htrail.push hkey)
      have hdepth : ((trail.push (Expr.key e)).cutBy cut).depth = trail.depth + 1 := by simp
      refine ⟨cut.filter (· < trail.depth - 1), ?_, ?_⟩
      · rw [hinside]
        exact (Trail.leave_of_depth_eq hdepth).trans (Trail.pop_cutBy_push hkey cut)
      · intro n hn
        -- what points below a depth up to the frame underneath is passed on to it
        have hpassed : (cut.filter (· < trail.depth - 1)).any (· < n) = cut.any (· < n) := by
          cases cut with
          | none => rfl
          | some depth =>
            by_cases hlt : depth < trail.depth - 1
            · simp [Option.filter, hlt]
            · have hge : ¬depth < n := by omega
              simp [Option.filter, hlt, hge]
        rw [hpassed, hcut n (by rw [Trail.depth_push]; omega)]
        refine exists_congr fun key => and_congr_right fun _ => exists_congr fun depth =>
          and_congr_right fun hlt => ?_
        rw [Trail.push, Dict.get?_insert]
        by_cases hsame : key = Expr.key e
        · have hne : trail.depth ≠ depth := by omega
          simp [hsame, hkey, hne]
        · rw [if_neg hsame]

/-- Inference leaves its trail as it was, but for what the latest frame learns. -/
theorem inferWithin_leaves (codebase : Codebase) (budget : Nat) (e : Filed Expr) {trail : Trail}
    (s : σ) (htrail : trail.Consistent) :
    (store.inferWithin codebase budget e trail s).Leaves trail := by
  induction budget generalizing e trail s with
  | zero => exact store.visit_leaves (fun _ _ _ _ => .unchanged _ _ _) e s htrail
  | succ budget ih =>
    refine store.visit_leaves (fun e trail s htrail => ?_) e s htrail
    exact Inquiry.course_leaves ih (typeOf codebase trail.reach e) s htrail

theorem ask_leaves (codebase : Codebase) (budget : Nat) (question : Question) {trail : Trail}
    (s : σ) (htrail : trail.Consistent) :
    (store.ask codebase budget question trail s).Leaves trail :=
  Inquiry.course_leaves (store.inferWithin_leaves codebase budget) _ s htrail

end Store

namespace Store

variable {σ : Type} (store : Store σ)

/-- On a trail without frames requests take the courses that they take on trails of their own. -/
theorem series_eq_freshSeries (codebase : Codebase) (budget : Nat) (reach : Reach)
    (questions : List Question) (s : σ) :
    store.series codebase budget questions (.fresh reach) s =
      store.freshSeries codebase budget reach questions s := by
  induction questions generalizing s with
  | nil => rfl
  | cons question rest ih =>
    obtain ⟨cut, hcut, -⟩ :=
      store.ask_leaves codebase budget question s (Trail.consistent_fresh reach)
    rw [Trail.cutBy_of_nil rfl] at hcut
    rw [series, freshSeries, hcut, ih]

/-- Whatever nested scopes have put on the trail, whichever store keeps the types and however a
request ends, it leaves reach, keys and depths as they were and all frames but the latest one
unchanged. That one is final afterwards just if it was before and no expression was refused whose
frame lies below it. So a trail without frames stays one, and requests that follow on it take the
same course as on trails of their own. With a memo as the store this is the course that inference
takes. -/
theorem ask_restores (codebase : Codebase) (budget : Nat) (turn : Turn) (s : σ) :
    let course := store.ask codebase budget turn.question turn.trail s
    (course.trail.reach = turn.trail.reach ∧ course.trail.keys = turn.trail.keys ∧
      course.trail.active = turn.trail.active ∧
      course.trail.stack.tail = turn.trail.stack.tail) ∧
    (∀ top, turn.trail.depth = top + 1 →
      (course.trail.isFinalAt top = true ↔ turn.trail.isFinalAt top = true ∧
        ∀ key ∈ course.refused, key ∉ turn.trail.keys.tail)) ∧
    (turn.trail.stack = [] → course.trail = .fresh turn.reach ∧
      ∀ questions : List Question, store.series codebase budget questions turn.trail s =
        store.freshSeries codebase budget turn.reach questions s) ∧
    ∀ memo, (turn.question.inquiry codebase turn.reach).run (codebase.inferWithin budget)
        ⟨turn.trail, memo⟩ =
      (Memo.store.ask codebase budget turn.question turn.trail memo).ending := by
  intro course
  have htrail := turn.consistent_trail
  obtain ⟨cut, hcut, hbelow⟩ := store.ask_leaves codebase budget turn.question s htrail
  refine ⟨?_, ?_, ?_, ?_⟩
  · show (store.ask _ _ _ _ _).trail.reach = _ ∧ _
    simp [course, hcut]
  · intro top htop
    have hall : cut.all (top ≤ ·) = true ↔ ¬cut.any (· < top) = true := by
      cases cut <;> simp
    show (store.ask _ _ _ _ _).trail.isFinalAt top = true ↔ _
    rw [hcut, Trail.isFinalAt_cutBy htop, Bool.and_eq_true, hall, hbelow top (by omega)]
    simp only [htrail.mem_tail_keys_iff htop, not_exists, not_and]
    rfl
  · intro hempty
    have hfresh := htrail.eq_fresh hempty
    rw [turn.reach_trail] at hfresh
    refine ⟨?_, fun questions => ?_⟩
    · rw [← hfresh, ← Trail.cutBy_of_nil hempty cut]
      exact hcut
    · rw [hfresh, store.series_eq_freshSeries]
  · intro memo
    have hrun := Memo.run_eq (Memo.inferWithin_eq codebase budget)
      (turn.question.inquiry codebase turn.reach) ⟨turn.trail, memo⟩
    rw [hrun, ask, turn.reach_trail]

end Store

/-- A variable that begins with itself or a number, asked for where its initializer and then a use
of it are under way: the frame of the use learns that the initializer was refused below it. -/
theorem Project.selfOrNumber_ask_restores :
    ∃ initializer inner use, selfOrNumber.codebase.expr? ⟨0, 0⟩ = .ok (some initializer) ∧
      selfOrNumber.codebase.expr? ⟨0, 1⟩ = .ok (some inner) ∧
      selfOrNumber.codebase.expr? ⟨0, 4⟩ = .ok (some use) ∧
      let codebase := selfOrNumber.codebase
      let turn : Turn :=
        ⟨.full, [.enter (Expr.key initializer), .enter (Expr.key use)], .typeOf inner⟩
      let course :=
        Memo.store.ask codebase codebase.budget turn.question turn.trail (some .empty)
      turn.trail.depth = 2 ∧ turn.trail.isFinalAt 1 = true ∧ course.trail.isFinalAt 1 = false ∧
        (∃ key ∈ course.refused, key ∈ turn.trail.keys.tail) ∧
        course.trail.keys = turn.trail.keys ∧
        Memo.store.series codebase codebase.budget [.typeOf inner, .typeOf use] (.fresh .full)
            (some .empty) =
          Memo.store.freshSeries codebase codebase.budget .full [.typeOf inner, .typeOf use]
            (some .empty) := by
  have htest : selfOrNumber.codebase.testAt ⟨0, 0⟩ (fun initializer =>
      selfOrNumber.codebase.testAt ⟨0, 1⟩ fun inner =>
        selfOrNumber.codebase.testAt ⟨0, 4⟩ fun use =>
          let turn : Turn :=
            ⟨.full, [.enter (Expr.key initializer), .enter (Expr.key use)], .typeOf inner⟩
          let course := Memo.store.ask selfOrNumber.codebase selfOrNumber.codebase.budget
            turn.question turn.trail (some .empty)
          turn.trail.depth = 2 &&
            (turn.trail.isFinalAt 1 && !course.trail.isFinalAt 1)) = true := by
    decide +kernel
  have hclosed := Project.closed made_selfOrNumber
  obtain ⟨initializer, hinitializer, -, htest⟩ := hclosed.exists_of_testAt htest
  obtain ⟨inner, hinner, -, htest⟩ := hclosed.exists_of_testAt htest
  obtain ⟨use, huse, -, htest⟩ := hclosed.exists_of_testAt htest
  simp only [Bool.and_eq_true, decide_eq_true_eq, Bool.not_eq_true'] at htest
  obtain ⟨hdepth, hbefore, hafter⟩ := htest
  obtain ⟨⟨-, hkeys, -, -⟩, hfinal, -, -⟩ := Memo.store.ask_restores selfOrNumber.codebase
    selfOrNumber.codebase.budget
    ⟨.full, [.enter (Expr.key initializer), .enter (Expr.key use)], .typeOf inner⟩ (some .empty)
  obtain ⟨-, -, hseries, -⟩ := Memo.store.ask_restores selfOrNumber.codebase
    selfOrNumber.codebase.budget ⟨.full, [], .typeOf inner⟩ (some .empty)
  refine ⟨initializer, inner, use, hinitializer, hinner, huse, hdepth, hbefore, hafter, ?_, hkeys,
    (hseries rfl).2 _⟩
  by_contra hnone
  have hstill := (hfinal 1 hdepth).2 ⟨hbefore, fun key hkey hmem => hnone ⟨key, hkey, hmem⟩⟩
  rw [hafter] at hstill
  cases hstill

end LuaTypes
