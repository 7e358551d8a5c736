import LuaTypes.Proofs.Inference.Calls

/-!
# The depth of a request

Every inquiry that the rules of a legible codebase lead to comes to an end, in whatever state of a
request it is made. On the way no more frames are put on top of each other than there are keys of
expressions that were not under way, and this is also a budget that is enough.

* `Call.inside`: the trail while a call is answered; `Call.OnPath.depth_inside_le`: how deep it is;
* `Codebase.Ends`: an inquiry comes to an end;
* `Codebase.ends_of_legible`: those of the rules do.
-/

namespace LuaTypes

namespace Call

/-- The trail while a call is answered. -/
def inside (call : Call) : Trail :=
  if call.isEntered then call.state.trail.push (Expr.key call.expr) else call.state.trail

/-- A call of an expression of a codebase on a trail that consists of the keys below and a path on
top of them. -/
structure OnPath (codebase : Codebase) (below : List Key) (call : Call) : Prop where
  consistent : call.state.trail.Consistent
  hasExpr : codebase.HasExpr call.expr
  keys : ∃ path, codebase.IsPath below path ∧ call.state.trail.keys = path ++ below

theorem OnPath.depth_inside_le {codebase : Codebase} {below : List Key} {call : Call}
    (h : call.OnPath codebase below) :
    call.inside.depth ≤ below.length + (codebase.keysOff below).ncard := by
  obtain ⟨e, trail, memo⟩ := call
  obtain ⟨htrail, he, path, hpath, hkeys⟩ := h
  have hdepth : trail.depth = path.length + below.length := by
    rw [← Trail.length_keys, hkeys, List.length_append]
  unfold inside
  split
  · next hentered =>
    have hnew := ((Codebase.isEntered_iff htrail).1 hentered).2
    rw [hkeys] at hnew
    have hlength := (hpath.cons he hnew).length_le
    simp only [List.length_cons] at hlength
    simp only [Trail.depth_push, hdepth]
    omega
  · have hlength := hpath.length_le
    simp only [hdepth]
    omega

end Call

namespace Codebase

variable {codebase : Codebase} {below path : List Key}

/-- The questions of an inquiry are asked on the path on which it is made. -/
theorem calls_onPath {α : Type} {budget : Nat} {inquiry : Inquiry α}
    (hwithin : inquiry.Within codebase.HasExpr)
    (h : ∀ e {trail : Trail} (memo : Option Memo), codebase.HasExpr e → trail.Consistent →
      trail.keys = path ++ below →
      ∀ call ∈ codebase.callsWithin budget e ⟨trail, memo⟩, call.OnPath codebase below)
    {trail : Trail} (htrail : trail.Consistent) (hkeys : trail.keys = path ++ below)
    (memo : Option Memo) :
    ∀ call ∈ inquiry.calls (codebase.inferWithin budget) (codebase.callsWithin budget)
      ⟨trail, memo⟩, call.OnPath codebase below := by
  induction hwithin generalizing trail memo with
  | done value => simp [Inquiry.calls]
  | @ask e next he _ ih =>
    intro call hcall
    simp only [Inquiry.calls, codebase.inferWithin_eq budget htrail, Finding.onto] at hcall
    rcases List.mem_append.1 hcall with hcall | hcall
    · exact h e memo he htrail hkeys call hcall
    · cases hout : (codebase.probe trail.reach budget trail.keys e memo).outcome with
      | value ty =>
        rw [hout] at hcall
        exact ih ty (htrail.cutBy _) (by rw [Trail.keys_cutBy, hkeys]) _ call hcall
      | failed foreign => simp [hout] at hcall
      | exhausted => simp [hout] at hcall

namespace Legible

/-- Whatever a request on a path leads to lies on a path. -/
theorem callsWithin_onPath (h : codebase.Legible) (budget : Nat) {e : Filed Expr}
    (he : codebase.HasExpr e) (hpath : codebase.IsPath below path) {trail : Trail}
    (htrail : trail.Consistent) (hkeys : trail.keys = path ++ below) (memo : Option Memo) :
    ∀ call ∈ codebase.callsWithin budget e ⟨trail, memo⟩, call.OnPath codebase below := by
  have hself : (Call.mk e ⟨trail, memo⟩).OnPath codebase below := ⟨htrail, he, path, hpath, hkeys⟩
  induction budget generalizing e path trail memo with
  | zero => simpa [callsWithin] using hself
  | succ budget ih =>
    intro call hcall
    rcases callsWithin_succ_cases htrail hcall with rfl | ⟨-, hnew, hcall⟩
    · exact hself
    · have hpush := htrail.push (htrail.get?_active_eq_none_iff.2 hnew)
      have hpath' := hpath.cons he (hkeys ▸ hnew)
      have hkeys' : (trail.push (Expr.key e)).keys = (Expr.key e :: path) ++ below := by
        rw [Trail.keys_push, hkeys, List.cons_append]
      refine calls_onPath (h.typeOf trail.reach he) ?_ hpush hkeys' memo call hcall
      intro e' trail' memo' he' htrail' hkeys'
      exact ih he' hpath' htrail' hkeys' memo' ⟨htrail', he', _, hpath', hkeys'⟩

end Legible

/-- An inquiry comes to an end: a type is found, and a larger budget finds no other; and at no
moment are there more frames on top of those in the beginning than keys of expressions that were not
under way then. -/
structure Ends (codebase : Codebase) (inquiry : Inquiry Ty) (state : State) : Prop where
  value : ∃ ty, (codebase.answer inquiry state).1 = .value ty
  budget : ∀ budget, (codebase.keysOff state.trail.keys).ncard ≤ budget →
    inquiry.run (codebase.inferWithin budget) state = codebase.answer inquiry state
  depth : ∀ call ∈ inquiry.calls codebase.infer codebase.calls state,
    call.inside.depth ≤ state.trail.depth + (codebase.keysOff state.trail.keys).ncard

namespace Legible

/-- What asks for expressions of a legible codebase only comes to an end. -/
theorem ends_of_within (h : codebase.Legible) {trail : Trail} (htrail : trail.Consistent)
    (memo : Option Memo) {inquiry : Inquiry Ty} (hwithin : inquiry.Within codebase.HasExpr) :
    codebase.Ends inquiry ⟨trail, memo⟩ := by
  generalize hcount : (codebase.keysOff trail.keys).ncard = count
  have hvalue : ∃ ty,
      (inquiry.probe (codebase.probe trail.reach count trail.keys) memo).outcome = .value ty := by
    refine hwithin.probe_value (fun e memo' he => ?_) memo
    exact h.probe_value he .nil (hcount ▸ Nat.le_add_right _ _) memo'
  have hlarger : ∀ budget, count ≤ budget →
      inquiry.run (codebase.inferWithin budget) ⟨trail, memo⟩ =
        (inquiry.probe (codebase.probe trail.reach count trail.keys) memo).onto trail := by
    intro budget hbudget
    rw [codebase.run_inferWithin_eq budget htrail inquiry memo]
    congr 1
    obtain ⟨ty, hty⟩ := hvalue
    exact Inquiry.probe_mono (fun e memo' hout => probe_mono hbudget hout) inquiry memo
      (by simp [hty])
  have hanswer := hlarger codebase.budget (hcount ▸ codebase.ncard_keysOff_le trail.keys)
  constructor
  · rw [answer, infer, hanswer]
    exact hvalue
  · intro budget hbudget
    rw [answer, infer, hanswer]
    exact hlarger budget (hcount ▸ hbudget)
  · intro call hcall
    have honpath : call.OnPath codebase trail.keys := by
      refine calls_onPath hwithin ?_ htrail (List.nil_append _).symm memo call hcall
      intro e trail' memo' he htrail' hkeys'
      exact h.callsWithin_onPath codebase.budget he .nil htrail' hkeys' memo'
    have hdepth := honpath.depth_inside_le
    rwa [Trail.length_keys] at hdepth

end Legible

/-- Whatever nested scopes have put on the trail, and whatever the memo holds: in a legible codebase
the type of every expression, what the rules of operators, calls and function bodies give, and the
type of what a file returns are found, and the trail grows no deeper on the way than there are keys
to enter. -/
theorem ends_of_legible (h : codebase.Legible) (reach : Reach) (steps : List Scopes.Step)
    (memo : Option Memo) :
    let state : State := ⟨((Scopes.fresh reach).run steps).trail, memo⟩
    (∀ e, codebase.HasExpr e → codebase.Ends (.typeOf e) state) ∧
    (∀ node, codebase.HasNode node →
      codebase.Ends (typeOfUnary node) state ∧ codebase.Ends (typeOfBinary node) state ∧
      codebase.Ends (typeOfCall codebase reach node) state ∧
      codebase.Ends (typeOfBody codebase node) state ∧ codebase.Ends (typeOfReturns node) state) ∧
    ∀ file, codebase.Ends (typeOfExport codebase file) state := by
  have hends {inquiry : Inquiry Ty} (hwithin : inquiry.Within codebase.HasExpr) :
      codebase.Ends inquiry ⟨((Scopes.fresh reach).run steps).trail, memo⟩ :=
    h.ends_of_within (Scopes.consistent_run reach steps) memo hwithin
  refine ⟨fun e he => hends (.typeOf he), ?_, fun file => hends (h.typeOfExport file)⟩
  intro node hnode
  exact ⟨hends (h.typeOfUnary hnode), hends (h.typeOfBinary hnode),
    hends (h.typeOfCall reach hnode), hends (h.typeOfBody hnode), hends (h.typeOfReturns hnode)⟩

end Codebase

open Project Build in
/-- A variable that begins with itself, twice in parentheses that are not written: the two pairs are
of one key. -/
def Project.selfInBareParens : Project :=
  declaring (localStmt ["x"] [node .parenExpr [node .parenExpr [name "x"]]]) (name "x")

/-- On top of a forgotten scope, the request for the outer pair comes to an end. -/
theorem Project.selfInBareParens_ends :
    ∃ outer inner forgotten, selfInBareParens.codebase.expr? ⟨0, 0⟩ = .ok (some outer) ∧
      selfInBareParens.codebase.expr? ⟨0, 1⟩ = .ok (some inner) ∧
      selfInBareParens.codebase.expr? ⟨0, 3⟩ = .ok (some forgotten) ∧
      Expr.key outer = Expr.key inner ∧ outer.value.node.above ≠ inner.value.node.above ∧
      let steps : List Scopes.Step := [.enter (Expr.key forgotten), .forget]
      selfInBareParens.codebase.Ends (.typeOf outer)
        ⟨((Scopes.fresh .full).run steps).trail, some .empty⟩ := by
  have hlegible : selfInBareParens.codebase.Legible := Project.legible (by decide +kernel)
  have htest : selfInBareParens.codebase.testAt ⟨0, 0⟩ (fun outer =>
      selfInBareParens.codebase.testAt ⟨0, 1⟩ fun inner =>
      selfInBareParens.codebase.testAt ⟨0, 3⟩ fun _ =>
        decide (Expr.key outer = Expr.key inner) &&
          decide (outer.value.node.above.length ≠ inner.value.node.above.length)) = true := by
    decide +kernel
  obtain ⟨outer, houter, hexpr, htest⟩ := hlegible.exists_of_testAt htest
  obtain ⟨inner, hinner, -, htest⟩ := hlegible.exists_of_testAt htest
  obtain ⟨forgotten, hforgotten, -, htest⟩ := hlegible.exists_of_testAt htest
  obtain ⟨hkey, habove⟩ := Bool.and_eq_true_iff.1 htest
  refine ⟨outer, inner, forgotten, houter, hinner, hforgotten, of_decide_eq_true hkey, ?_, ?_⟩
  · exact mt (congrArg List.length) (of_decide_eq_true habove)
  · exact (selfInBareParens.codebase.ends_of_legible hlegible .full
      [.enter (Expr.key forgotten), .forget] (some .empty)).1 outer hexpr

end LuaTypes
