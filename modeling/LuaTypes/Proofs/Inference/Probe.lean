import LuaTypes.Inference.Run
import LuaTypes.Proofs.Inference.Trail

/-!
# Inference below a path

What a request finds depends on its trail only by way of the keys under way, and all that it leaves
on the trail is what the latest frame learns of refusals. So inference is a function of a path of
keys and a memo, and its result says how it ends, how far down a refusal pointed and what the memo
holds then.

* `Codebase.probe`: inference below a path, `Codebase.inside`: what goes on in an expression's own
  frame;
* `Finding.leave_memo_kept`, `Inquiry.probe_memo_kept`: what leaving a frame, and asking one
  question after the other, keep of the memo;
* `Codebase.inferWithin_eq`: a request on a consistent trail is inference below the keys of the
  trail, and so is what `Codebase.run_inferWithin_eq` answers; `Codebase.inferFresh_eq`: a request
  of its own is inference below no path.
-/

namespace LuaTypes

/-- An entry of a memo in which one was kept is that one or was there before. -/
theorem Memo.entry_of_insert {memo : Option Memo} {key key' : MemoKey} {ty ty' : Ty}
    (h : (memo.map (·.insert key ty)).bind (·.get? key') = some ty') :
    (key' = key ∧ ty' = ty) ∨ memo.bind (·.get? key') = some ty' := by
  cases memo with
  | none => cases h
  | some memo =>
    simp only [Option.map_some, Option.bind_some, Memo.get?_insert] at h ⊢
    split at h
    · next hkey => exact Or.inl ⟨hkey, (Option.some.inj h).symm⟩
    · exact Or.inr h

/-- What comes of an inquiry: how it ends, the least depth that a refusal told to its frame pointed
at, and the memo. -/
structure Finding (α : Type) where
  outcome : Outcome α
  cut : Option Nat
  memo : Option Memo

namespace Finding

variable {α : Type}

/-- Whether no refusal told to a frame at this depth pointed below it. -/
def isFinalAt (found : Finding α) (depth : Nat) : Bool := found.cut.all (depth ≤ ·)

/-- What comes of an expression whose frame, at this depth, is left. -/
def leave (found : Finding Ty) (key : MemoKey) (depth : Nat) : Finding Ty where
  outcome := found.outcome
  cut := found.cut.filter (· < depth - 1)
  memo :=
    match found.outcome with
    | .value ty => if found.isFinalAt depth then found.memo.map (·.insert key ty) else found.memo
    | _ => found.memo

/-- Leaving a frame keeps of the memo what is kept when its answer is written, if it is final. -/
theorem leave_memo_kept (Inv : Option Memo → Prop) {found : Finding Ty} {key : MemoKey}
    {depth : Nat} (hmemo : Inv found.memo)
    (hwrite : ∀ ty, found.outcome = .value ty → found.isFinalAt depth = true →
      Inv (found.memo.map (·.insert key ty))) : Inv (found.leave key depth).memo := by
  obtain ⟨outcome, cut, memo⟩ := found
  cases outcome with
  | failed foreign => exact hmemo
  | exhausted => exact hmemo
  | value ty =>
    simp only [leave]
    split
    · next hfinal => exact hwrite ty rfl hfinal
    · exact hmemo

/-- A finding whose frame learnt of other refusals before. -/
def after (found : Finding α) (cut : Option Nat) : Finding α :=
  { found with cut := cut.merge min found.cut }

end Finding

/-- A way to find types that needs no trail. -/
abbrev Looker := Filed Expr → Option Memo → Finding Ty

/-- Answers the questions of an inquiry one after the other. -/
def Inquiry.probe {α : Type} (look : Looker) : Inquiry α → Option Memo → Finding α
  | .done value, memo => ⟨.value value, none, memo⟩
  | .fail foreign, memo => ⟨.failed foreign, none, memo⟩
  | .ask e next, memo =>
    match (look e memo).outcome with
    | .value ty => ((next ty).probe look (look e memo).memo).after (look e memo).cut
    | .failed foreign => ⟨.failed foreign, (look e memo).cut, (look e memo).memo⟩
    | .exhausted => ⟨.exhausted, (look e memo).cut, (look e memo).memo⟩

/-- What every question keeps of the memo, the inquiry keeps. -/
theorem Inquiry.probe_memo_kept {α : Type} {look : Looker} (Inv : Option Memo → Prop)
    (h : ∀ e memo, Inv memo → Inv (look e memo).memo) (inquiry : Inquiry α) {memo : Option Memo}
    (hmemo : Inv memo) : Inv (inquiry.probe look memo).memo := by
  induction inquiry generalizing memo with
  | done value => exact hmemo
  | fail foreign => exact hmemo
  | ask e next ih =>
    have hfirst := h e memo hmemo
    simp only [Inquiry.probe]
    cases (look e memo).outcome with
    | value ty => exact ih ty hfirst
    | failed foreign => exact hfirst
    | exhausted => exact hfirst

/-- Looks an expression up in the memo, or on the path, or else finds its type. -/
def lookUp (reach : Reach) (path : List Key) (find : Looker) : Looker := fun e memo =>
  match memo.bind (·.get? ⟨Expr.key e, reach⟩) with
  | some ty => ⟨.value ty, none, memo⟩
  | none =>
    match depthOf path (Expr.key e) with
    | some depth => ⟨.value .unknown, some depth, memo⟩
    | none => (find e memo).leave ⟨Expr.key e, reach⟩ path.length

namespace Codebase

variable (codebase : Codebase) (reach : Reach)

/-- What goes on in the frame of an expression, which lies on top of a path. -/
def inside : Nat → List Key → Looker
  | 0, _ => fun _ memo => ⟨.exhausted, none, memo⟩
  | budget + 1, path => fun e memo =>
    (typeOf codebase reach e).probe
      (lookUp reach (Expr.key e :: path) (inside budget (Expr.key e :: path))) memo

/-- Inference below a path. -/
def probe (budget : Nat) (path : List Key) : Looker :=
  lookUp reach path (codebase.inside reach budget path)

theorem inside_zero (path : List Key) (e : Filed Expr) (memo : Option Memo) :
    codebase.inside reach 0 path e memo = ⟨.exhausted, none, memo⟩ := rfl

theorem inside_succ (budget : Nat) (path : List Key) (e : Filed Expr) (memo : Option Memo) :
    codebase.inside reach (budget + 1) path e memo =
      (typeOf codebase reach e).probe (codebase.probe reach budget (Expr.key e :: path)) memo := rfl

variable {codebase reach}

theorem probe_of_known {budget : Nat} {path : List Key} {e : Filed Expr} {memo : Option Memo}
    {ty : Ty} (h : memo.bind (·.get? ⟨Expr.key e, reach⟩) = some ty) :
    codebase.probe reach budget path e memo = ⟨.value ty, none, memo⟩ := by
  simp [probe, lookUp, h]

theorem probe_of_refused {budget : Nat} {path : List Key} {e : Filed Expr} {memo : Option Memo}
    {depth : Nat} (h : memo.bind (·.get? ⟨Expr.key e, reach⟩) = none)
    (hdepth : depthOf path (Expr.key e) = some depth) :
    codebase.probe reach budget path e memo = ⟨.value .unknown, some depth, memo⟩ := by
  simp [probe, lookUp, h, hdepth]

theorem probe_of_entered {budget : Nat} {path : List Key} {e : Filed Expr} {memo : Option Memo}
    (h : memo.bind (·.get? ⟨Expr.key e, reach⟩) = none) (hpath : Expr.key e ∉ path) :
    codebase.probe reach budget path e memo =
      (codebase.inside reach budget path e memo).leave ⟨Expr.key e, reach⟩ path.length := by
  simp [probe, lookUp, h, depthOf_eq_none_iff.2 hpath]

variable (codebase reach) in
/-- A key is in the memo, or on the path, or entered. -/
theorem probe_cases (budget : Nat) (path : List Key) (e : Filed Expr) (memo : Option Memo) :
    (∃ ty, memo.bind (·.get? ⟨Expr.key e, reach⟩) = some ty ∧
      codebase.probe reach budget path e memo = ⟨.value ty, none, memo⟩) ∨
    (∃ depth, memo.bind (·.get? ⟨Expr.key e, reach⟩) = none ∧
      depthOf path (Expr.key e) = some depth ∧
      codebase.probe reach budget path e memo = ⟨.value .unknown, some depth, memo⟩) ∨
    (memo.bind (·.get? ⟨Expr.key e, reach⟩) = none ∧ Expr.key e ∉ path ∧
      codebase.probe reach budget path e memo =
        (codebase.inside reach budget path e memo).leave ⟨Expr.key e, reach⟩ path.length) := by
  cases hmemo : memo.bind (·.get? ⟨Expr.key e, reach⟩) with
  | some ty => exact Or.inl ⟨ty, rfl, probe_of_known hmemo⟩
  | none =>
    cases hdepth : depthOf path (Expr.key e) with
    | some depth => exact Or.inr (Or.inl ⟨depth, rfl, rfl, probe_of_refused hmemo hdepth⟩)
    | none =>
      have hpath := depthOf_eq_none_iff.1 hdepth
      exact Or.inr (Or.inr ⟨rfl, hpath, probe_of_entered hmemo hpath⟩)

end Codebase

/-! ### Requests without a memo -/

namespace Codebase

variable {codebase : Codebase} {reach : Reach}

theorem probe_memo_none_of_inside {budget : Nat} {path : List Key} {e : Filed Expr}
    (h : (codebase.inside reach budget path e none).memo = none) :
    (codebase.probe reach budget path e none).memo = none := by
  rcases codebase.probe_cases reach budget path e none with
    ⟨ty, -, hprobe⟩ | ⟨depth, -, -, hprobe⟩ | ⟨-, -, hprobe⟩ <;> rw [hprobe]
  apply Finding.leave_memo_kept (· = none) h
  intro ty _ _
  rw [h, Option.map_none]

/-- A request without a memo gets none. -/
theorem probe_memo_none (budget : Nat) (path : List Key) (e : Filed Expr) :
    (codebase.probe reach budget path e none).memo = none := by
  apply probe_memo_none_of_inside
  induction budget generalizing path e with
  | zero => rfl
  | succ budget ih =>
    rw [inside_succ]
    apply Inquiry.probe_memo_kept (· = none) _ _ rfl
    rintro other _ rfl
    exact probe_memo_none_of_inside (ih (Expr.key e :: path) other)

end Codebase

/-! ### Requests on a trail -/

/-- What a finding makes of the state in which the inquiry began. -/
def Finding.onto {α : Type} (found : Finding α) (trail : Trail) : Outcome α × State :=
  (found.outcome, ⟨trail.cutBy found.cut, found.memo⟩)

theorem Finding.onto_after {α : Type} (found : Finding α) (trail : Trail) (cut : Option Nat) :
    (found.after cut).onto trail = found.onto (trail.cutBy cut) := by
  simp [onto, after, Trail.cutBy_cutBy]

/-- Where the answers to questions are the same with and without a trail, so is the outcome of an
inquiry. -/
theorem Inquiry.run_eq {α : Type} (find : Finder) (look : Looker) (trail : Trail)
    (h : ∀ e memo cut, find e ⟨trail.cutBy cut, memo⟩ = (look e memo).onto (trail.cutBy cut))
    (inquiry : Inquiry α) (memo : Option Memo) (cut : Option Nat) :
    inquiry.run find ⟨trail.cutBy cut, memo⟩ =
      (inquiry.probe look memo).onto (trail.cutBy cut) := by
  induction inquiry generalizing memo cut with
  | done value => rfl
  | fail foreign => rfl
  | ask e next ih =>
    simp only [Inquiry.run, Inquiry.probe, h e memo cut, Finding.onto]
    cases hout : (look e memo).outcome with
    | value ty =>
      show (next ty).run find ⟨(trail.cutBy cut).cutBy (look e memo).cut, (look e memo).memo⟩ =
        (((next ty).probe look (look e memo).memo).after (look e memo).cut).onto (trail.cutBy cut)
      rw [Finding.onto_after, Trail.cutBy_cutBy, ih]
    | failed foreign => rfl
    | exhausted => rfl

namespace Codebase

variable (codebase : Codebase)

/-- Where the frame of an expression works alike with and without a trail, so does looking for its
type. -/
theorem visit_eq {find : Finder} {trail : Trail} {look : Looker} (htrail : trail.Consistent)
    (h : ∀ e memo, trail.active.get? (Expr.key e) = none →
      find e ⟨trail.push (Expr.key e), memo⟩ = (look e memo).onto (trail.push (Expr.key e)))
    (e : Filed Expr) (memo : Option Memo) :
    visit find e ⟨trail, memo⟩ = (lookUp trail.reach trail.keys look e memo).onto trail := by
  unfold visit lookUp
  simp only [State.known?]
  cases hmemo : memo.bind (·.get? ⟨Expr.key e, trail.reach⟩) with
  | some ty => rfl
  | none =>
    simp only [Trail.enter, htrail.active]
    cases hdepth : depthOf trail.keys (Expr.key e) with
    | some depth => rfl
    | none =>
      have hnew := (htrail.active (Expr.key e)).trans hdepth
      simp only [h e memo hnew, Finding.onto, State.close, Trail.isFinalAt_cutBy_push, State.keep,
        Trail.reach_cutBy, Trail.reach_push]
      -- leaving takes the expression's own frame away, and no other
      have hdepth' : ((trail.push (Expr.key e)).cutBy (look e memo).cut).depth =
          trail.depth + 1 := by
        simp
      have hleave := (Trail.leave_of_depth_eq hdepth').trans
        (Trail.pop_cutBy_push hnew (look e memo).cut)
      simp only [Finding.leave, Finding.isFinalAt, Trail.length_keys]
      cases (look e memo).outcome with
      | value ty =>
        by_cases hfinal : (look e memo).cut.all (trail.depth ≤ ·) = true <;> simp [hfinal, hleave]
      | failed foreign => simp [hleave]
      | exhausted => simp [hleave]

/-- Where requests work alike with and without a trail, so does the answer to an inquiry. -/
theorem run_eq_of_infer {budget : Nat}
    (h : ∀ {trail : Trail}, trail.Consistent → ∀ e memo,
      codebase.inferWithin budget e ⟨trail, memo⟩ =
        (codebase.probe trail.reach budget trail.keys e memo).onto trail)
    {α : Type} {trail : Trail} (htrail : trail.Consistent) (inquiry : Inquiry α)
    (memo : Option Memo) :
    inquiry.run (codebase.inferWithin budget) ⟨trail, memo⟩ =
      (inquiry.probe (codebase.probe trail.reach budget trail.keys) memo).onto trail := by
  -- a refusal that the latest frame has learnt of changes neither keys nor reach
  have hlook : ∀ e memo cut, codebase.inferWithin budget e ⟨trail.cutBy cut, memo⟩ =
      (codebase.probe trail.reach budget trail.keys e memo).onto (trail.cutBy cut) := by
    intro e memo cut
    rw [h (htrail.cutBy cut), Trail.reach_cutBy, Trail.keys_cutBy]
  exact Inquiry.run_eq _ _ trail hlook inquiry memo none

/-- Where requests work alike with and without a trail, so does the frame of an expression. -/
theorem byRule_eq {budget : Nat}
    (h : ∀ {trail : Trail}, trail.Consistent → ∀ e memo,
      codebase.inferWithin budget e ⟨trail, memo⟩ =
        (codebase.probe trail.reach budget trail.keys e memo).onto trail)
    {trail : Trail} (htrail : trail.Consistent) {e : Filed Expr}
    (hnew : trail.active.get? (Expr.key e) = none) (memo : Option Memo) :
    codebase.byRule (codebase.inferWithin budget) e ⟨trail.push (Expr.key e), memo⟩ =
      (codebase.inside trail.reach (budget + 1) trail.keys e memo).onto
        (trail.push (Expr.key e)) :=
  codebase.run_eq_of_infer h (htrail.push hnew) (typeOf codebase trail.reach e) memo

/-- A request on a consistent trail is inference below the keys of the trail. -/
theorem inferWithin_eq (budget : Nat) {trail : Trail} (htrail : trail.Consistent) (e : Filed Expr)
    (memo : Option Memo) :
    codebase.inferWithin budget e ⟨trail, memo⟩ =
      (codebase.probe trail.reach budget trail.keys e memo).onto trail := by
  induction budget generalizing trail e memo with
  | zero => exact visit_eq htrail (fun _ _ _ => rfl) e memo
  | succ budget ih =>
    apply visit_eq htrail
    intro e memo hnew
    exact codebase.byRule_eq ih htrail hnew memo

/-- An inquiry on a consistent trail is answered by inference below the keys of the trail. -/
theorem run_inferWithin_eq {α : Type} (budget : Nat) {trail : Trail} (htrail : trail.Consistent)
    (inquiry : Inquiry α) (memo : Option Memo) :
    inquiry.run (codebase.inferWithin budget) ⟨trail, memo⟩ =
      (inquiry.probe (codebase.probe trail.reach budget trail.keys) memo).onto trail :=
  codebase.run_eq_of_infer (codebase.inferWithin_eq budget) htrail inquiry memo

theorem infer_eq {trail : Trail} (htrail : trail.Consistent) (e : Filed Expr)
    (memo : Option Memo) :
    codebase.infer e ⟨trail, memo⟩ =
      (codebase.probe trail.reach codebase.budget trail.keys e memo).onto trail :=
  codebase.inferWithin_eq codebase.budget htrail e memo

/-- A request of its own is inference below no path. -/
theorem inferFresh_eq (reach : Reach) (memo : Option Memo) (e : Filed Expr) :
    codebase.inferFresh reach memo e =
      (codebase.probe reach codebase.budget [] e memo).onto (.fresh reach) :=
  codebase.infer_eq (Trail.consistent_fresh reach) e memo

end Codebase

end LuaTypes
