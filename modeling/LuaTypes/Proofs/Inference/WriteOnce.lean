import LuaTypes.Proofs.Inference.Calls

/-!
# Entries are written once

A request writes the type of an expression only where the memo holds none, and no request on the way
writes it first: the expression is under way until then. So at every moment of a request the memo
holds whatever it held before, and what a request of its own finds stays until it is taken out.

* `Memo.GrowsTo`: a later memo holds whatever an earlier one holds;
* `Memo.GrowsOff`: and it has no new entries under the keys of a path; `Codebase.probe_growsOff`:
  inference below the path leaves such a memo;
* `Codebase.callsWithin_growsTo`: at the end of a request, the memo holds what it held at the
  beginning of any call on the way;
* `Memo.Event`, `Memo.after`: what happens to a memo that requests share;
* `Codebase.writes_once`: entries stay, and requests of their own leave theirs.
-/

namespace LuaTypes

namespace Memo

/-- Whatever the earlier memo holds, the later one holds. -/
def GrowsTo (before after : Option Memo) : Prop :=
  ∀ key ty, before.bind (·.get? key) = some ty → after.bind (·.get? key) = some ty

theorem GrowsTo.refl (memo : Option Memo) : GrowsTo memo memo := fun _ _ h => h

theorem GrowsTo.trans {before between after : Option Memo} (h : GrowsTo before between)
    (h' : GrowsTo between after) : GrowsTo before after :=
  fun key ty hbefore => h' key ty (h key ty hbefore)

/-- An entry is kept in a memo that holds none under its key. -/
theorem growsTo_insert {memo : Option Memo} {key : MemoKey}
    (h : memo.bind (·.get? key) = none) (ty : Ty) : GrowsTo memo (memo.map (·.insert key ty)) := by
  intro key' ty' hget
  have hother : key' ≠ key := by
    rintro rfl
    rw [h] at hget
    cases hget
  cases memo with
  | none => cases hget
  | some memo => simpa [get?_insert, hother] using hget

/-- The later memo holds whatever the earlier one holds, and under the keys of a path no more. -/
structure GrowsOff (reach : Reach) (path : List Key) (before after : Option Memo) : Prop where
  grows : GrowsTo before after
  used : after.isSome = before.isSome
  off : ∀ key ∈ path, before.bind (·.get? ⟨key, reach⟩) = none →
    after.bind (·.get? ⟨key, reach⟩) = none

namespace GrowsOff

variable {reach : Reach} {path : List Key} {before between after : Option Memo}

theorem refl (memo : Option Memo) : GrowsOff reach path memo memo :=
  ⟨.refl memo, rfl, fun _ _ h => h⟩

theorem trans (h : GrowsOff reach path before between) (h' : GrowsOff reach path between after) :
    GrowsOff reach path before after :=
  ⟨h.grows.trans h'.grows, h'.used.trans h.used,
    fun key hkey hbefore => h'.off key hkey (h.off key hkey hbefore)⟩

theorem mono {fewer : List Key} (h : GrowsOff reach path before after) (hsub : fewer ⊆ path) :
    GrowsOff reach fewer before after :=
  ⟨h.grows, h.used, fun key hkey => h.off key (hsub hkey)⟩

/-- An entry is kept under a key off the path, where the memo holds none. -/
theorem insert {memo : Option Memo} {key : Key} (h : memo.bind (·.get? ⟨key, reach⟩) = none)
    (hkey : key ∉ path) (ty : Ty) :
    GrowsOff reach path memo (memo.map (·.insert ⟨key, reach⟩ ty)) := by
  refine ⟨growsTo_insert h ty, Option.isSome_map, ?_⟩
  intro key' hkey' hnone
  have hother : key' ≠ key := by
    rintro rfl
    exact hkey hkey'
  cases memo with
  | none => rfl
  | some memo => simpa [get?_insert, hother] using hnone

end GrowsOff

end Memo

/-- Where every question keeps off a path, the inquiry does. -/
theorem Inquiry.probe_growsOff {α : Type} {reach : Reach} {path : List Key} {look : Looker}
    (h : ∀ e memo, Memo.GrowsOff reach path memo (look e memo).memo) (inquiry : Inquiry α)
    (memo : Option Memo) : Memo.GrowsOff reach path memo (inquiry.probe look memo).memo := by
  apply inquiry.probe_memo_kept (Memo.GrowsOff reach path memo) _ (.refl memo)
  intro e between hbetween
  exact hbetween.trans (h e between)

/-- Leaving a frame writes its entry, if any. -/
theorem Finding.leave_growsOff {found : Finding Ty} {reach : Reach} {path : List Key} {key : Key}
    (hnone : found.memo.bind (·.get? ⟨key, reach⟩) = none) (hkey : key ∉ path) (depth : Nat) :
    Memo.GrowsOff reach path found.memo (found.leave ⟨key, reach⟩ depth).memo := by
  apply leave_memo_kept (Memo.GrowsOff reach path found.memo) (.refl found.memo)
  intro ty _ _
  exact .insert hnone hkey ty

namespace Codebase

variable {codebase : Codebase} {reach : Reach} {budget : Nat} {path : List Key}

/-! ### Below a path -/

/-- What goes on in a frame leaves its own entry out; it is written when the frame is left. -/
theorem probe_growsOff_of_inside {e : Filed Expr} {memo : Option Memo}
    (h : Memo.GrowsOff reach (Expr.key e :: path) memo
      (codebase.inside reach budget path e memo).memo) :
    Memo.GrowsOff reach path memo (codebase.probe reach budget path e memo).memo := by
  rcases codebase.probe_cases reach budget path e memo with
    ⟨ty, -, hprobe⟩ | ⟨depth, -, -, hprobe⟩ | ⟨hmemo, hpath, hprobe⟩ <;> rw [hprobe]
  · exact .refl memo
  · exact .refl memo
  · have hinside := h.mono (List.subset_cons_self _ _)
    have hnone := h.off _ List.mem_cons_self hmemo
    exact hinside.trans (Finding.leave_growsOff hnone hpath _)

variable (codebase reach budget path) in
theorem inside_growsOff (e : Filed Expr) (memo : Option Memo) :
    Memo.GrowsOff reach (Expr.key e :: path) memo
      (codebase.inside reach budget path e memo).memo := by
  induction budget generalizing path e memo with
  | zero => exact .refl memo
  | succ budget ih =>
    rw [inside_succ]
    apply Inquiry.probe_growsOff
    intro e' memo'
    exact probe_growsOff_of_inside (ih (Expr.key e :: path) e' memo')

variable (codebase reach budget path) in
/-- Inference below a path changes no entry, and writes none under a key of the path. -/
theorem probe_growsOff (e : Filed Expr) (memo : Option Memo) :
    Memo.GrowsOff reach path memo (codebase.probe reach budget path e memo).memo :=
  probe_growsOff_of_inside (codebase.inside_growsOff reach budget path e memo)

/-- A request of its own leaves its answer in the memo. -/
theorem exists_known_of_probe {e : Filed Expr} {memo : Memo} {ty : Ty}
    (h : (codebase.probe reach budget [] e (some memo)).outcome = .value ty) :
    ∃ left, (codebase.probe reach budget [] e (some memo)).memo = some left ∧
      left.get? ⟨Expr.key e, reach⟩ = some ty := by
  rcases codebase.probe_cases reach budget [] e (some memo) with
    ⟨known, hknown, hprobe⟩ | ⟨depth, -, hdepth, -⟩ | ⟨-, -, hprobe⟩
  · rw [hprobe] at h ⊢
    cases h
    exact ⟨memo, rfl, hknown⟩
  · cases hdepth
  · rw [hprobe] at h ⊢
    have hused := (codebase.inside_growsOff reach budget [] e (some memo)).used
    obtain ⟨inner, hinner⟩ := Option.isSome_iff_exists.1 hused
    -- no refusal points below the lowest frame
    refine ⟨inner.insert ⟨Expr.key e, reach⟩ ty, ?_, by simp [Memo.get?_insert]⟩
    have hout : (codebase.inside reach budget [] e (some memo)).outcome = .value ty := h
    simp [Finding.leave, hout, hinner, Finding.isFinalAt]

/-! ### In a request -/

variable {trail : Trail}

/-- An inquiry on a trail changes no entry, and writes none under a key of the trail. -/
theorem run_growsOff {α : Type} (htrail : trail.Consistent) (inquiry : Inquiry α)
    (memo : Option Memo) :
    Memo.GrowsOff trail.reach trail.keys memo
      (inquiry.run (codebase.inferWithin budget) ⟨trail, memo⟩).2.memo := by
  rw [codebase.run_inferWithin_eq budget htrail]
  exact Inquiry.probe_growsOff (codebase.probe_growsOff trail.reach budget trail.keys) inquiry memo

variable (codebase) in
/-- A request changes no entry, and writes none under a key of the trail. -/
theorem inferWithin_growsOff (budget : Nat) (htrail : trail.Consistent) (e : Filed Expr)
    (memo : Option Memo) :
    Memo.GrowsOff trail.reach trail.keys memo
      (codebase.inferWithin budget e ⟨trail, memo⟩).2.memo := by
  rw [codebase.inferWithin_eq budget htrail]
  exact codebase.probe_growsOff trail.reach budget trail.keys e memo

/-- Whatever the memo holds when one of the calls of an inquiry begins, it holds at the end of the
inquiry. -/
theorem calls_growsTo {α : Type} {inquiry : Inquiry α}
    (h : ∀ e {trail : Trail} (memo : Option Memo), trail.Consistent →
      ∀ call ∈ codebase.callsWithin budget e ⟨trail, memo⟩,
        Memo.GrowsTo call.state.memo (codebase.inferWithin budget e ⟨trail, memo⟩).2.memo)
    (htrail : trail.Consistent) (memo : Option Memo) :
    ∀ call ∈ inquiry.calls (codebase.inferWithin budget) (codebase.callsWithin budget)
        ⟨trail, memo⟩,
      Memo.GrowsTo call.state.memo
        (inquiry.run (codebase.inferWithin budget) ⟨trail, memo⟩).2.memo := by
  induction inquiry generalizing trail memo with
  | done value => simp [Inquiry.calls]
  | fail foreign => simp [Inquiry.calls]
  | ask e next ih =>
    intro call hcall
    have hfirst := h e memo htrail call
    simp only [Inquiry.calls, Inquiry.run] at hcall ⊢
    simp only [codebase.inferWithin_eq budget htrail, Finding.onto] at hcall hfirst ⊢
    cases hout : (codebase.probe trail.reach budget trail.keys e memo).outcome with
    | value ty =>
      simp only [hout] at hcall ⊢
      -- the rest of the inquiry goes on from what the question leaves
      have hcut := htrail.cutBy (codebase.probe trail.reach budget trail.keys e memo).cut
      rcases List.mem_append.1 hcall with hcall | hcall
      · exact (hfirst hcall).trans (run_growsOff hcut (next ty) _).grows
      · exact ih ty hcut _ call hcall
    | failed foreign => exact hfirst (by simpa [hout] using hcall)
    | exhausted => exact hfirst (by simpa [hout] using hcall)

/-- Whatever the memo holds when one of the calls of a request begins, it holds at the end of the
request. -/
theorem callsWithin_growsTo (budget : Nat) (e : Filed Expr) (htrail : trail.Consistent)
    (memo : Option Memo) :
    ∀ call ∈ codebase.callsWithin budget e ⟨trail, memo⟩,
      Memo.GrowsTo call.state.memo (codebase.inferWithin budget e ⟨trail, memo⟩).2.memo := by
  have hself := codebase.inferWithin_growsOff budget htrail e memo
  induction budget generalizing e trail memo with
  | zero => simpa [callsWithin] using hself.grows
  | succ budget ih =>
    intro call hcall
    rcases callsWithin_succ_cases htrail hcall with rfl | ⟨hmemo, hpath, hcall⟩
    · exact hself.grows
    · have hpush := htrail.push (htrail.get?_active_eq_none_iff.2 hpath)
      have hframe : Memo.GrowsTo call.state.memo
          (codebase.inside trail.reach (budget + 1) trail.keys e memo).memo := by
        have hcalls := calls_growsTo (fun e' _ memo' htrail' =>
          ih e' htrail' memo' (codebase.inferWithin_growsOff budget htrail' e' memo'))
          hpush memo call hcall
        rwa [codebase.run_inferWithin_eq budget hpush] at hcalls
      -- while the frame is there, no entry is written under its key
      have hnone := (codebase.inside_growsOff trail.reach (budget + 1) trail.keys e memo).off _
        List.mem_cons_self hmemo
      rw [codebase.inferWithin_eq (budget + 1) htrail, Finding.onto, probe_of_entered hmemo hpath]
      exact hframe.trans (Finding.leave_growsOff hnone hpath _).grows

theorem inferWithin_of_known {e : Filed Expr} {state : State} {ty : Ty}
    (h : state.known? (Expr.key e) = some ty) :
    codebase.inferWithin budget e state = (.value ty, state) := by
  simp only [inferWithin_eq_visit, visit, h]

end Codebase

/-! ### Between requests -/

namespace Memo

/-- What may happen to a memo that requests share. -/
inductive Event where
  /-- A request within a budget, of whatever codebase, on whatever trail. -/
  | request (codebase : Codebase) (budget : Nat) (reach : Reach) (steps : List Scopes.Step)
    (e : Filed Expr)
  | invalidate (file : FileNumber)
  | clear

/-- Whether an event leaves the expressions of a file in the memo. -/
def Event.spares (file : FileNumber) : Event → Prop
  | request .. => True
  | invalidate other => other ≠ file
  | clear => False

/-- The memo after an event. -/
def step (memo : Memo) : Event → Memo
  | .request codebase budget reach steps e =>
    (codebase.inferWithin budget e
      ⟨((Scopes.fresh reach).run steps).trail, some memo⟩).2.memo.getD memo
  | .invalidate file => memo.invalidate file
  | .clear => .empty

/-- The memo after events that come one after the other. -/
def after (memo : Memo) (events : List Event) : Memo := events.foldl step memo

variable {memo : Memo} {key : MemoKey} {ty : Ty}

theorem get?_step {event : Event} (h : event.spares key.expr.file)
    (hget : memo.get? key = some ty) : (memo.step event).get? key = some ty := by
  cases event with
  | request codebase budget reach steps e =>
    obtain ⟨hgrows, hused, -⟩ :=
      codebase.inferWithin_growsOff budget (Scopes.consistent_run reach steps) e (some memo)
    obtain ⟨after, hafter⟩ := Option.isSome_iff_exists.1 hused
    rw [hafter] at hgrows
    simp only [step, hafter, Option.getD_some]
    exact hgrows key ty hget
  | invalidate file =>
    rw [step, get?_invalidate, if_neg (Ne.symm h)]
    exact hget
  | clear => exact h.elim

/-- An entry stays as long as nothing takes out the expressions of its file. -/
theorem get?_after {events : List Event} (h : ∀ event ∈ events, event.spares key.expr.file)
    (hget : memo.get? key = some ty) : (memo.after events).get? key = some ty := by
  induction events generalizing memo with
  | nil => exact hget
  | cons event events ih =>
    obtain ⟨hevent, hevents⟩ := List.forall_mem_cons.1 h
    exact ih hevents (get?_step hevent hget)

end Memo

namespace Codebase

/-- Whatever nested scopes have put on the trail, a request changes no entry of the memo and removes
none, neither of those in the beginning nor of those that come about on the way. What a request of
its own finds is then in the memo; and if it is asked for again after other requests, on whatever
trails, and after other files were invalidated, it is found at once. In a legible codebase a request
of its own does find a type. -/
theorem writes_once (codebase : Codebase) (budget : Nat) (reach : Reach) (memo : Memo)
    (e : Filed Expr) :
    (∀ steps, let state : State := ⟨((Scopes.fresh reach).run steps).trail, some memo⟩
      let after := (codebase.inferWithin budget e state).2.memo
      Memo.GrowsTo (some memo) after ∧
        ∀ call ∈ codebase.callsWithin budget e state, Memo.GrowsTo call.state.memo after) ∧
    (∀ ty, (codebase.inferWithin budget e (.fresh reach (some memo))).1 = .value ty →
      ∃ left, (codebase.inferWithin budget e (.fresh reach (some memo))).2.memo = some left ∧
        left.get? ⟨Expr.key e, reach⟩ = some ty ∧
        ∀ events : List Memo.Event, (∀ event ∈ events, event.spares e.file) →
          ∀ (later : Codebase) (budget' : Nat) (steps : List Scopes.Step),
            let state : State :=
              ⟨((Scopes.fresh reach).run steps).trail, some (left.after events)⟩
            later.inferWithin budget' e state = (.value ty, state)) ∧
    (codebase.Legible → codebase.HasExpr e → codebase.budget ≤ budget →
      ∃ ty, (codebase.inferWithin budget e (.fresh reach (some memo))).1 = .value ty) := by
  refine ⟨fun steps => ?_, fun ty hty => ?_, fun hlegible he hbudget => ?_⟩
  · have htrail := Scopes.consistent_run reach steps
    exact ⟨(codebase.inferWithin_growsOff budget htrail e (some memo)).grows,
      callsWithin_growsTo budget e htrail (some memo)⟩
  · have hprobe := codebase.inferWithin_eq budget (Trail.consistent_fresh reach) e (some memo)
    rw [State.fresh, hprobe] at hty ⊢
    obtain ⟨left, hleft, hknown⟩ := exists_known_of_probe hty
    refine ⟨left, hleft, hknown, ?_⟩
    intro events hevents later budget' steps
    apply inferWithin_of_known
    simp only [State.known?, Scopes.reach_run]
    exact Memo.get?_after hevents hknown
  · rw [State.fresh, codebase.inferWithin_eq budget (Trail.consistent_fresh reach)]
    exact hlegible.probe_value he .nil ((codebase.ncard_keysOff_le []).trans hbudget) (some memo)

end Codebase

/-- The initializer of a variable that begins with itself or a number keeps its type while another
use of the variable is inferred on top of its frame, and another file is invalidated. -/
theorem Project.selfOrNumber_writes_once :
    ∃ e outer ty left, selfOrNumber.codebase.expr? ⟨0, 0⟩ = .ok (some e) ∧
      selfOrNumber.codebase.expr? ⟨0, 4⟩ = .ok (some outer) ∧
      (selfOrNumber.codebase.inferFresh .full (some .empty) e).1 = .value ty ∧
      (selfOrNumber.codebase.inferFresh .full (some .empty) e).2.memo = some left ∧
      left.get? ⟨Expr.key e, .full⟩ = some ty ∧
      let events : List Memo.Event :=
        [.request selfOrNumber.codebase selfOrNumber.codebase.budget .ownFile
          [.enter (Expr.key e)] outer, .invalidate 1]
      (∀ event ∈ events, event.spares 0) ∧
        selfOrNumber.codebase.inferFresh .full (some (left.after events)) e =
          (.value ty, .fresh .full (some (left.after events))) := by
  have htest : selfOrNumber.codebase.testAt ⟨0, 0⟩ (fun e =>
      selfOrNumber.codebase.testAt ⟨0, 4⟩ fun _ => decide (e.file = 0)) = true := by decide +kernel
  have hclosed := Project.closed made_selfOrNumber
  obtain ⟨e, hexpr, he, htest⟩ := hclosed.exists_of_testAt htest
  obtain ⟨outer, houter, -, htest⟩ := hclosed.exists_of_testAt htest
  have hfile : e.file = 0 := of_decide_eq_true htest
  obtain ⟨-, hleaves, hfinds⟩ :=
    selfOrNumber.codebase.writes_once selfOrNumber.codebase.budget .full .empty e
  obtain ⟨ty, hty⟩ := hfinds hclosed.legible he (Nat.le_refl _)
  obtain ⟨left, hleft, hknown, hagain⟩ := hleaves ty hty
  refine ⟨e, outer, ty, left, hexpr, houter, hty, hleft, hknown, ?_⟩
  intro events
  have hspares : ∀ event ∈ events, event.spares 0 := by
    simp [events, Memo.Event.spares]
  refine ⟨hspares, ?_⟩
  exact hagain events (hfile ▸ hspares) selfOrNumber.codebase selfOrNumber.codebase.budget []

end LuaTypes
