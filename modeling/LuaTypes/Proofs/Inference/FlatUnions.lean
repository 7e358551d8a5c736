import LuaTypes.Proofs.Inference.Asks
import LuaTypes.Proofs.Inference.WriteOnce
import LuaTypes.Proofs.Project.Testing
import LuaTypes.Proofs.Ty.Built

/-!
# Inferred unions are flat

The rules join types and take them apart again, but make no union in another way. So if the types
that a codebase knows beforehand are built by the constructors, every union that occurs in an answer
or in an entry of a memo is flat, however many requests share the memo.

* `Codebase.KnowsBuilt`: what is assumed of the types known beforehand;
* `Memo.HasFlatUnions`: every union that occurs in an entry is flat; `Memo.hasFlatUnions_after`:
  so it is after whatever has happened to the memo; `State.IsSound`: so it is on a consistent trail;
* `unions_flat`: unions of built types, of answers and of entries.
-/

namespace LuaTypes

namespace Codebase

/-- The types that a codebase knows beforehand are built by the constructors. -/
structure KnowsBuilt (codebase : Codebase) : Prop where
  annotated : ∀ {name ty}, codebase.bindingOf name = .ok (some (.annotated ty)) → ty.Built
  declared : ∀ {body ty}, codebase.declaredType body = .ok (some ty) → ty.Built

variable {codebase : Codebase}

theorem KnowsBuilt.enclosure (h : codebase.KnowsBuilt) (reach : Reach) :
    Enclosure True codebase reach (fun _ => True) (·.isProper = true) :=
  enclosure_all Ty.stable_isProper (fun hfound => (h.annotated hfound).isProper)
    (fun hfound => (h.declared hfound).isProper) reach

end Codebase

namespace Memo

/-- Every union that occurs in an entry is flat. -/
def HasFlatUnions (memo : Option Memo) : Prop :=
  ∀ key ty, memo.bind (·.get? key) = some ty → ty.HasFlatUnions

theorem hasFlatUnions_none : HasFlatUnions none := nofun

theorem hasFlatUnions_empty : HasFlatUnions (some .empty) := nofun

theorem HasFlatUnions.invalidate {memo : Memo} (h : HasFlatUnions (some memo)) (file : FileNumber) :
    HasFlatUnions (some (memo.invalidate file)) := by
  intro key ty hget
  simp only [Option.bind_some, get?_invalidate] at hget
  split at hget
  · cases hget
  · exact h key ty hget

/-- Requests read flat unions and keep flat unions. -/
theorem upheld_hasFlatUnions (reach : Reach) :
    Upheld reach (fun _ => True) (·.isProper = true) HasFlatUnions where
  known hmemo _ hget := (hmemo _ _ hget).isProper
  keep := by
    intro memo e ty hmemo _ hty key ty' hget
    rcases entry_of_insert hget with ⟨-, rfl⟩ | hget
    · exact .of_isProper hty
    · exact hmemo key ty' hget

end Memo

/-- The trail is consistent, and the unions of the entries of the memo are flat. -/
structure State.IsSound (state : State) : Prop where
  trail : state.trail.Consistent
  memo : Memo.HasFlatUnions state.memo

namespace Codebase.KnowsBuilt

variable {codebase : Codebase}

/-- In a sound state an answer is proper, and the state stays sound. -/
theorem inferWithin_sound (h : codebase.KnowsBuilt) (budget : Nat) (e : Filed Expr) {state : State}
    (hstate : state.IsSound) :
    let result := codebase.inferWithin budget e state
    (∀ ty, result.1 = .value ty → ty.isProper = true) ∧ result.2.IsSound := by
  obtain ⟨trail, memo⟩ := state
  obtain ⟨htrail, hmemo⟩ := hstate
  rw [codebase.inferWithin_eq budget htrail]
  obtain ⟨hvalue, -, hinv⟩ := (h.enclosure trail.reach).probe_sound
    (Memo.upheld_hasFlatUnions trail.reach) budget trail.keys (e := e) trivial hmemo
  exact ⟨hvalue, htrail.cutBy _, hinv⟩

/-- An answer is flat where the entries of the memo are, and these stay so. -/
theorem inferWithin_flat (h : codebase.KnowsBuilt) (budget : Nat) (reach : Reach)
    (steps : List Scopes.Step) (e : Filed Expr) {memo : Option Memo}
    (hmemo : Memo.HasFlatUnions memo) :
    let result := codebase.inferWithin budget e ⟨((Scopes.fresh reach).run steps).trail, memo⟩
    (∀ ty, result.1 = .value ty → ty.HasFlatUnions) ∧ Memo.HasFlatUnions result.2.memo := by
  have hstate : State.IsSound ⟨((Scopes.fresh reach).run steps).trail, memo⟩ :=
    ⟨Scopes.consistent_run reach steps, hmemo⟩
  obtain ⟨hvalue, hsound⟩ := h.inferWithin_sound budget e hstate
  exact ⟨fun ty hty => .of_isProper (hvalue ty hty), hsound.memo⟩

end Codebase.KnowsBuilt

namespace Memo

/-- The types known to the codebase of a request are built by the constructors. -/
def Event.KnowsBuilt : Event → Prop
  | request codebase .. => codebase.KnowsBuilt
  | invalidate _ => True
  | clear => True

theorem hasFlatUnions_step {memo : Memo} {event : Event} (h : event.KnowsBuilt)
    (hmemo : HasFlatUnions (some memo)) : HasFlatUnions (some (memo.step event)) := by
  cases event with
  | request codebase budget reach steps e =>
    have hflat := (Codebase.KnowsBuilt.inferWithin_flat h budget reach steps e hmemo).2
    obtain ⟨-, hused, -⟩ :=
      codebase.inferWithin_growsOff budget (Scopes.consistent_run reach steps) e (some memo)
    obtain ⟨left, hleft⟩ := Option.isSome_iff_exists.1 hused
    rw [hleft] at hflat
    simpa only [step, hleft, Option.getD_some] using hflat
  | invalidate file => exact hmemo.invalidate file
  | clear => exact hasFlatUnions_empty

/-- Whatever happens to a memo, the unions of its entries stay flat. -/
theorem hasFlatUnions_after {memo : Memo} {events : List Event}
    (h : ∀ event ∈ events, event.KnowsBuilt) (hmemo : HasFlatUnions (some memo)) :
    HasFlatUnions (some (memo.after events)) := by
  induction events generalizing memo with
  | nil => exact hmemo
  | cons event events ih =>
    obtain ⟨hevent, hevents⟩ := List.forall_mem_cons.1 h
    exact ih hevents (hasFlatUnions_step hevent hmemo)

end Memo

/-- Every union that occurs in a built type is flat. Where the types known beforehand are built, so
is every union that occurs in an answer or in the memo afterwards, if those of the memo were flat
before; and they are after whatever has happened to a memo that was empty in the beginning. -/
theorem unions_flat :
    (∀ ty : Ty, ty.Built → ty.HasFlatUnions) ∧
    (∀ events : List Memo.Event, (∀ event ∈ events, event.KnowsBuilt) →
      Memo.HasFlatUnions (some (Memo.empty.after events))) ∧
    ∀ codebase : Codebase, codebase.KnowsBuilt →
      ∀ (budget : Nat) (reach : Reach) (steps : List Scopes.Step) (memo : Option Memo)
        (e : Filed Expr), Memo.HasFlatUnions memo →
      let result := codebase.inferWithin budget e ⟨((Scopes.fresh reach).run steps).trail, memo⟩
      (∀ ty, result.1 = .value ty → ty.HasFlatUnions) ∧ Memo.HasFlatUnions result.2.memo := by
  refine ⟨fun ty hty => .of_isProper hty.isProper, ?_, ?_⟩
  · intro events hevents
    exact Memo.hasFlatUnions_after hevents Memo.hasFlatUnions_empty
  · intro codebase hknows budget reach steps memo e hmemo
    exact hknows.inferWithin_flat budget reach steps e hmemo

namespace Project

open Build

/-- A variable that begins with a global or a number; the global is a string or a truth value. -/
def globalOrNumber : Project :=
  (declaring (localStmt ["x"] [orElse (name "g") (number "1")]) (name "x")).withGlobal "g"
    (Ty.string.join .boolean)

theorem made_globalOrNumber : ∀ tree ∈ globalOrNumber.files, Made tree :=
  made_declaring (.localStmt _ (made_one (made_orElse (.name _) (.number _)))) (.name _)

/-- What a project knows beforehand are the types of its globals and functions, and nil. -/
theorem knowsBuilt {project : Project}
    (hglobals : ∀ name ty, project.globals.get? name = some ty → ty.Built)
    (hdeclared : ∀ path ty, project.declaredTypes.get? path = some ty → ty.Built) :
    project.codebase.KnowsBuilt := by
  have hwhole := whole_all project
  constructor
  · intro name ty hfound
    exact (hwhole.bindingOf_reads .nil hglobals trivial).ok _ hfound _ rfl
  · intro body ty hfound
    exact (hwhole.declaredType_reads hdeclared trivial).ok _ hfound ty rfl

/-- The union that is found of the variable is flat, also in a memo that keeps it while another file
is taken out. -/
theorem globalOrNumber_unions_flat :
    globalOrNumber.codebase.KnowsBuilt ∧
    ∃ e ty, globalOrNumber.codebase.expr? ⟨0, 3⟩ = .ok (some e) ∧
      (globalOrNumber.codebase.inferFresh .full none e).1 = .value ty ∧
      ty.isUnion = true ∧ ty.HasFlatUnions ∧
      Memo.HasFlatUnions (some (Memo.empty.after
        [.request globalOrNumber.codebase globalOrNumber.codebase.budget .full [] e,
          .invalidate 1])) := by
  have hknows : globalOrNumber.codebase.KnowsBuilt := by
    apply knowsBuilt
    · intro name ty hget
      simp only [globalOrNumber, withGlobal, Dict.get?_insert] at hget
      split at hget
      · cases hget
        exact .join .string .boolean
      · cases hget
    · intro path ty hget
      cases hget
  have hclosed := closed made_globalOrNumber
  have htest : globalOrNumber.codebase.testAt ⟨0, 3⟩ (fun e =>
      (globalOrNumber.codebase.typeAlone .full e).isUnion) = true := by decide +kernel
  obtain ⟨e, hexpr, he, hunion⟩ := hclosed.exists_of_testAt htest
  have hvalue := hclosed.inferFresh_alone .full he
  obtain ⟨-, hevents, hinfer⟩ := unions_flat
  have hflat := hinfer _ hknows globalOrNumber.codebase.budget .full [] none e
    Memo.hasFlatUnions_none
  refine ⟨hknows, e, _, hexpr, hvalue, hunion, hflat.1 _ hvalue, hevents _ ?_⟩
  simp [Memo.Event.KnowsBuilt, hknows]

end Project

end LuaTypes
