import LuaTypes.Proofs.Inference.Probe

/-!
# Final answers

What lies below the frame of an expression matters to it only where a refusal points there. So an
answer that is final when its frame is left is the answer that a request of its own finds with the
same memo, and the memo holds the same afterwards.

* `Codebase.inside_append`: a path put below another one moves the depths up and changes nothing
  else, unless a refusal points at it;
* `Codebase.probe_of_final`: final answers are those of requests of their own;
* `Codebase.probe_mono`: a larger budget changes no answer.
-/

namespace LuaTypes

theorem Option.all_merge_min (a b : Option Nat) (n : Nat) :
    (a.merge min b).all (n ≤ ·) = (a.all (n ≤ ·) && b.all (n ≤ ·)) := by
  cases a <;> cases b <;>
    simp only [Option.merge, Option.all_none, Option.all_some, Nat.le_min, Bool.decide_and,
      Bool.true_and, Bool.and_true]

namespace Finding

variable {α : Type}

/-- A finding with its cut so many frames further up. -/
def raise (found : Finding α) (n : Nat) : Finding α := { found with cut := found.cut.map (· + n) }

theorem isFinalAt_after (found : Finding α) (cut : Option Nat) (n : Nat) :
    (found.after cut).isFinalAt n = (cut.all (n ≤ ·) && found.isFinalAt n) :=
  Option.all_merge_min cut found.cut n

theorem after_raise (found : Finding α) (cut : Option Nat) (n : Nat) :
    (found.raise n).after (cut.map (· + n)) = (found.after cut).raise n := by
  obtain ⟨outcome, cut', memo⟩ := found
  cases cut <;> cases cut' <;> simp [after, raise, Option.merge, Nat.add_min_add_right]

theorem leave_raise (found : Finding Ty) (key : MemoKey) (depth n : Nat) :
    (found.raise n).leave key (depth + n) = (found.leave key depth).raise n := by
  obtain ⟨outcome, cut, memo⟩ := found
  cases cut with
  | none => cases outcome <;> simp [leave, raise, isFinalAt]
  | some c =>
    have hlt : c + n < depth + n - 1 ↔ c < depth - 1 := by omega
    have hle : depth + n ≤ c + n ↔ depth ≤ c := by omega
    by_cases h : c < depth - 1 <;> cases outcome <;>
      simp [leave, raise, isFinalAt, Option.filter, hlt, hle, h]

/-- A cut that points below a depth is passed on by every frame above that depth. -/
theorem isFinalAt_of_leave {found : Finding Ty} {key : MemoKey} {depth n : Nat} (hdepth : n < depth)
    (h : (found.leave key depth).isFinalAt n = true) : found.isFinalAt n = true := by
  obtain ⟨outcome, cut, memo⟩ := found
  cases cut with
  | none => rfl
  | some c =>
    by_cases hpass : c < depth - 1
    · simpa [leave, isFinalAt, Option.filter, hpass] using h
    · simp only [isFinalAt, Option.all_some, decide_eq_true_eq]
      omega

end Finding

theorem Inquiry.probe_raise {α : Type} {look look' : Looker} {n : Nat}
    (h : ∀ e memo, (look e memo).isFinalAt n = true → look e memo = (look' e memo).raise n)
    (inquiry : Inquiry α) (memo : Option Memo)
    (hfinal : (inquiry.probe look memo).isFinalAt n = true) :
    inquiry.probe look memo = (inquiry.probe look' memo).raise n := by
  induction inquiry generalizing memo with
  | done value => rfl
  | fail foreign => rfl
  | ask e next ih =>
    have hlook : (look e memo).isFinalAt n = true := by
      simp only [Inquiry.probe] at hfinal
      cases hout : (look e memo).outcome with
      | value ty =>
        rw [hout] at hfinal
        simp only [Finding.isFinalAt_after, Bool.and_eq_true] at hfinal
        exact hfinal.1
      | failed foreign => rwa [hout] at hfinal
      | exhausted => rwa [hout] at hfinal
    have heq := h e memo hlook
    have houtcome : (look e memo).outcome = (look' e memo).outcome := by rw [heq]; rfl
    have hmemo : (look e memo).memo = (look' e memo).memo := by rw [heq]; rfl
    have hcut : (look e memo).cut = (look' e memo).cut.map (· + n) := by rw [heq]; rfl
    simp only [Inquiry.probe, ← houtcome, ← hmemo, hcut] at hfinal ⊢
    cases hout : (look e memo).outcome with
    | value ty =>
      simp only [hout, Finding.isFinalAt_after, Bool.and_eq_true] at hfinal ⊢
      rw [ih ty _ hfinal.2, Finding.after_raise]
    | failed foreign => rfl
    | exhausted => rfl

theorem lookUp_append {reach : Reach} (path : List Key) {below : List Key} {find find' : Looker}
    (hpath : path ≠ [])
    (h : ∀ e memo, (find e memo).isFinalAt below.length = true →
      find e memo = (find' e memo).raise below.length)
    (e : Filed Expr) (memo : Option Memo)
    (hfinal : (lookUp reach (path ++ below) find e memo).isFinalAt below.length = true) :
    lookUp reach (path ++ below) find e memo =
      (lookUp reach path find' e memo).raise below.length := by
  unfold lookUp at hfinal ⊢
  cases hmemo : memo.bind (·.get? ⟨Expr.key e, reach⟩) with
  | some ty => rfl
  | none =>
    simp only [hmemo, depthOf_append] at hfinal ⊢
    cases hdepth : depthOf path (Expr.key e) with
    | some depth => rfl
    | none =>
      cases hbelow : depthOf below (Expr.key e) with
      | some depth =>
        -- the refusal points below the path
        have hlt := depthOf_lt hbelow
        simp [hdepth, hbelow, Finding.isFinalAt] at hfinal
        omega
      | none =>
        have hpos := List.length_pos_iff.2 hpath
        simp only [hdepth, hbelow, List.length_append] at hfinal ⊢
        rw [h e memo (Finding.isFinalAt_of_leave (by omega) hfinal),
          Finding.leave_raise]

namespace Codebase

variable {codebase : Codebase} {reach : Reach}

/-- A path put below another one moves the depths up and changes nothing else, unless a refusal
points at it. -/
theorem inside_append (budget : Nat) (path below : List Key) (e : Filed Expr) (memo : Option Memo)
    (hfinal : (codebase.inside reach budget (path ++ below) e memo).isFinalAt below.length = true) :
    codebase.inside reach budget (path ++ below) e memo =
      (codebase.inside reach budget path e memo).raise below.length := by
  induction budget generalizing path e memo with
  | zero => rfl
  | succ budget ih =>
    rw [inside_succ, inside_succ] at *
    refine Inquiry.probe_raise ?_ (typeOf codebase reach e) memo hfinal
    intro e' memo' hfinal'
    refine lookUp_append (Expr.key e :: path) (List.cons_ne_nil _ _) ?_ e' memo' hfinal'
    intro e'' memo'' hfinal''
    exact ih (Expr.key e :: path) e'' memo'' hfinal''

/-- An answer that is final when its frame is left is that of a request of its own. -/
theorem probe_of_final {budget : Nat} {below : List Key} {e : Filed Expr} {memo : Option Memo}
    (hmemo : memo.bind (·.get? ⟨Expr.key e, reach⟩) = none) (hbelow : Expr.key e ∉ below)
    (hfinal : (codebase.inside reach budget below e memo).isFinalAt below.length = true) :
    (codebase.probe reach budget below e memo).outcome =
        (codebase.probe reach budget [] e memo).outcome ∧
      (codebase.probe reach budget below e memo).memo =
        (codebase.probe reach budget [] e memo).memo := by
  have heq := inside_append budget [] below e memo hfinal
  rw [List.nil_append] at heq
  have hfresh : (codebase.inside reach budget [] e memo).isFinalAt 0 = true := by
    cases hcut : (codebase.inside reach budget [] e memo).cut <;> simp [Finding.isFinalAt, hcut]
  rw [probe_of_entered hmemo hbelow, probe_of_entered hmemo List.not_mem_nil]
  constructor
  · simp [Finding.leave, heq, Finding.raise]
  · simp only [Finding.leave, hfinal, hfresh, List.length_nil]
    rw [heq]
    rfl

end Codebase

/-! ### Budgets -/

theorem Inquiry.probe_mono {α : Type} {look look' : Looker}
    (h : ∀ e memo, (look e memo).outcome ≠ .exhausted → look' e memo = look e memo)
    (inquiry : Inquiry α) (memo : Option Memo)
    (hout : (inquiry.probe look memo).outcome ≠ .exhausted) :
    inquiry.probe look' memo = inquiry.probe look memo := by
  induction inquiry generalizing memo with
  | done value => rfl
  | fail foreign => rfl
  | ask e next ih =>
    simp only [Inquiry.probe] at hout ⊢
    cases hlook : (look e memo).outcome with
    | value ty =>
      rw [hlook] at hout
      rw [h e memo (by simp [hlook]), hlook]
      simp only [ih ty (look e memo).memo hout]
    | failed foreign => rw [h e memo (by simp [hlook]), hlook]
    | exhausted => simp [hlook] at hout

namespace Codebase

variable {codebase : Codebase} {reach : Reach}

theorem lookUp_mono {path : List Key} {find find' : Looker}
    (h : ∀ e memo, (find e memo).outcome ≠ .exhausted → find' e memo = find e memo)
    (e : Filed Expr) (memo : Option Memo)
    (hout : (lookUp reach path find e memo).outcome ≠ .exhausted) :
    lookUp reach path find' e memo = lookUp reach path find e memo := by
  unfold lookUp at hout ⊢
  cases hmemo : memo.bind (·.get? ⟨Expr.key e, reach⟩) with
  | some ty => rfl
  | none =>
    cases hdepth : depthOf path (Expr.key e) with
    | some depth => rfl
    | none =>
      simp only [hmemo, hdepth] at hout ⊢
      rw [h e memo hout]

theorem inside_mono_succ (budget : Nat) (path : List Key) (e : Filed Expr) (memo : Option Memo)
    (h : (codebase.inside reach budget path e memo).outcome ≠ .exhausted) :
    codebase.inside reach (budget + 1) path e memo = codebase.inside reach budget path e memo := by
  induction budget generalizing path e memo with
  | zero => exact absurd rfl h
  | succ budget ih =>
    refine Inquiry.probe_mono ?_ (typeOf codebase reach e) memo h
    intro e' memo' hout
    exact lookUp_mono (fun e'' memo'' => ih (Expr.key e :: path) e'' memo'') e' memo' hout

/-- A larger budget changes no answer. -/
theorem probe_mono {budget larger : Nat} (hle : budget ≤ larger) {path : List Key} {e : Filed Expr}
    {memo : Option Memo} (h : (codebase.probe reach budget path e memo).outcome ≠ .exhausted) :
    codebase.probe reach larger path e memo = codebase.probe reach budget path e memo := by
  induction hle with
  | refl => rfl
  | @step larger _ ih =>
    have hlarger : (codebase.probe reach larger path e memo).outcome ≠ .exhausted := by
      rw [ih]
      exact h
    rw [← ih]
    exact lookUp_mono (fun e memo => inside_mono_succ larger path e memo) e memo hlarger

end Codebase

end LuaTypes
