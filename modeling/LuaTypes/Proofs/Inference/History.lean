import LuaTypes.Proofs.Inference.Asks

/-!
# Histories of requests

Requests that are made one after the other share a memo. What the memo holds of some expressions is
brought about by these expressions alone, if they ask for one another only: a frame of any other
expression is out of their reach and writes other entries.

* `Codebase.memoAfter`: the memo after a history of requests;
* `Codebase.memoAfter_kept`: an invariant that requests keep holds after every history;
* `Codebase.Closed.inferFresh_kept`: an invariant of some entries that is kept by the expressions
  they belong to is kept by all requests;
* `Memo.Holds`: what a memo holds of some expressions has a property;
  `Codebase.Closed.holds_memoAfter`: it has so after every history.
-/

namespace LuaTypes

/-- A request of its own for the type of an expression. -/
structure Request where
  reach : Reach
  expr : Filed Expr

namespace Codebase

variable (codebase : Codebase)

/-- The memo that requests leave behind which are made one after the other. -/
def memoAfter (history : List Request) : Option Memo :=
  history.foldl (fun memo request => (codebase.inferFresh request.reach memo request.expr).2.memo)
    (some .empty)

variable {codebase} {Inv : Option Memo → Prop}

theorem memoAfter_kept (hempty : Inv (some .empty)) {history : List Request}
    (h : ∀ request ∈ history, ∀ memo, Inv memo →
      Inv (codebase.inferFresh request.reach memo request.expr).2.memo) :
    Inv (codebase.memoAfter history) := by
  unfold memoAfter
  generalize some Memo.empty = memo at hempty
  induction history generalizing memo with
  | nil => exact hempty
  | cons request history ih =>
    rw [List.foldl_cons]
    apply ih
    · intro later hlater
      exact h later (List.mem_cons_of_mem _ hlater)
    · exact h request List.mem_cons_self memo hempty

theorem rule_kept {look : Looker} {P : Filed Expr → Prop} {inquiry : Inquiry Ty}
    (hwithin : inquiry.Within P) (h : ∀ e memo, P e → Inv memo → Inv (look e memo).memo)
    {memo : Option Memo} (hmemo : Inv memo) : Inv (inquiry.probe look memo).memo := by
  induction hwithin generalizing memo with
  | done value => exact hmemo
  | @ask e next he _ ih =>
    have hfirst := h e memo he hmemo
    simp only [Inquiry.probe]
    cases (look e memo).outcome with
    | value ty => exact ih ty hfirst
    | failed foreign => exact hfirst
    | exhausted => exact hfirst

section Kept

variable {reach : Reach} {In : Filed Expr → Prop}

/-- An expression that does not belong to those whose entries in a reach an invariant is about. -/
def IsOther (reach : Reach) (In : Filed Expr → Prop) (reach' : Reach) (e : Filed Expr) : Prop :=
  reach' = reach → ¬In e

theorem mem_of_reaches (hasks : ∀ {e other}, In e → codebase.Asks reach e other → In other)
    {e other : Filed Expr} (he : In e) (h : codebase.Reaches reach e other) : In other := by
  induction h with
  | refl => exact he
  | tail _ hask ih => exact hasks ih hask

variable (hclosed : codebase.Closed) (hIn : ∀ {e}, In e → codebase.HasExpr e)
  (hasks : ∀ {e other}, In e → codebase.Asks reach e other → In other)
  (hinside : ∀ {budget e memo}, In e → Inv memo → Inv (codebase.probe reach budget [] e memo).memo)
  (houtside : ∀ {key memo ty}, (∀ e, In e → key ≠ ⟨Expr.key e, reach⟩) → Inv memo →
    Inv (memo.map (·.insert key ty)))

include hclosed hIn hasks hinside houtside

theorem probe_kept {reach' : Reach} {budget : Nat} (path : List (Filed Expr))
    (hpath : ∀ p ∈ path, codebase.HasExpr p ∧ IsOther reach In reach' p) {e : Filed Expr}
    (he : codebase.HasExpr e)
    (h : ∀ memo, IsOther reach In reach' e → Inv memo →
      Inv (codebase.inside reach' budget (path.map Expr.key) e memo).memo)
    {memo : Option Memo} (hmemo : Inv memo) :
    Inv (codebase.probe reach' budget (path.map Expr.key) e memo).memo := by
  by_cases hother : IsOther reach In reach' e
  · rcases codebase.probe_cases reach' budget (path.map Expr.key) e memo with
      ⟨ty, -, hprobe⟩ | ⟨depth, -, -, hprobe⟩ | ⟨-, -, hprobe⟩ <;> rw [hprobe]
    · exact hmemo
    · exact hmemo
    · have hinside' := h memo hother hmemo
      apply Finding.leave_memo_kept Inv hinside'
      intro ty _ _
      refine houtside ?_ hinside'
      intro x hx hkey
      obtain ⟨hexpr, hreach⟩ := MemoKey.mk.inj hkey
      have heq := hclosed.eq_of_key he (hIn hx) hexpr
      exact hother hreach (heq ▸ hx)
  · -- whatever the expression reaches is among the others' expressions, and the path is not
    obtain ⟨rfl, hin⟩ : reach' = reach ∧ In e := by simpa [IsOther] using hother
    have hfar : ∀ third, codebase.Reaches reach' e third → Expr.key third ∉ path.map Expr.key := by
      intro third hthird hkey
      have hthirdIn := mem_of_reaches hasks hin hthird
      obtain ⟨p, hp, hpkey⟩ := List.mem_map.1 hkey
      have heq := hclosed.eq_of_key (hpath p hp).1 (hIn hthirdIn) hpkey
      exact (hpath p hp).2 rfl (heq ▸ hthirdIn)
    rw [(probe_unreached _ memo hfar).2]
    exact hinside hin hmemo

/-- What keeps an invariant in the frames of some expressions keeps it in the frames of all. -/
theorem inside_kept {reach' : Reach} {budget : Nat} {path : List (Filed Expr)}
    (hpath : ∀ p ∈ path, codebase.HasExpr p ∧ IsOther reach In reach' p) {e : Filed Expr}
    (he : codebase.HasExpr e) (hother : IsOther reach In reach' e) {memo : Option Memo}
    (hmemo : Inv memo) : Inv (codebase.inside reach' budget (path.map Expr.key) e memo).memo := by
  induction budget generalizing path e memo with
  | zero => exact hmemo
  | succ budget ih =>
    have hpath' : ∀ p ∈ e :: path, codebase.HasExpr p ∧ IsOther reach In reach' p := by
      intro p hp
      rcases List.mem_cons.1 hp with rfl | hp
      · exact ⟨he, hother⟩
      · exact hpath p hp
    refine rule_kept (hclosed.typeOf reach' he) ?_ hmemo
    intro other memo' hexpr hmemo'
    refine probe_kept hclosed hIn hasks hinside houtside _ hpath' hexpr ?_ hmemo'
    intro memo'' hother' hmemo''
    exact ih hpath' hexpr hother' hmemo''

/-- An invariant of some entries that is kept by the expressions they belong to is kept by all
requests. -/
theorem Closed.inferFresh_kept (reach' : Reach) {e : Filed Expr} (he : codebase.HasExpr e)
    {memo : Option Memo} (hmemo : Inv memo) : Inv (codebase.inferFresh reach' memo e).2.memo := by
  rw [inferFresh_eq]
  refine probe_kept hclosed hIn hasks hinside houtside [] (by simp) he ?_ hmemo
  intro memo' hother hmemo'
  exact inside_kept hclosed hIn hasks hinside houtside (by simp) he hother hmemo'

end Kept

end Codebase

/-! ### Properties of entries -/

/-- What a memo holds of some expressions in a reach has a property. -/
def Memo.Holds (reach : Reach) (In : Filed Expr → Prop) (P : Filed Expr → Ty → Prop)
    (memo : Option Memo) : Prop :=
  ∀ e ty, In e → memo.bind (·.get? ⟨Expr.key e, reach⟩) = some ty → P e ty

section Holds

variable {codebase : Codebase} {reach : Reach} {In : Filed Expr → Prop}
  {P : Filed Expr → Ty → Prop} {memo : Option Memo}

theorem Memo.Holds.insert (hclosed : codebase.Closed) (hIn : ∀ {e}, In e → codebase.HasExpr e)
    (h : Memo.Holds reach In P memo) {e : Filed Expr} (he : In e) {ty : Ty} (hP : P e ty) :
    Memo.Holds reach In P (memo.map (·.insert ⟨Expr.key e, reach⟩ ty)) := by
  intro other ty' hother hget
  rcases Memo.entry_of_insert hget with ⟨hkey, rfl⟩ | hget
  · rwa [hclosed.eq_of_key (hIn hother) (hIn he) (MemoKey.mk.inj hkey).1]
  · exact h other ty' hother hget

theorem Memo.Holds.insert_other (h : Memo.Holds reach In P memo) {key : MemoKey}
    (hkey : ∀ e, In e → key ≠ ⟨Expr.key e, reach⟩) (ty : Ty) :
    Memo.Holds reach In P (memo.map (·.insert key ty)) := by
  intro e ty' he hget
  rcases Memo.entry_of_insert hget with ⟨heq, -⟩ | hget
  · exact absurd heq.symm (hkey e he)
  · exact h e ty' he hget

/-- What requests for some expressions keep a memo to hold of them, it holds after every history. -/
theorem Codebase.Closed.holds_memoAfter (hclosed : codebase.Closed)
    (hIn : ∀ {e}, In e → codebase.HasExpr e)
    (hasks : ∀ {e other}, In e → codebase.Asks reach e other → In other)
    (hinside : ∀ {budget e memo}, In e → Memo.Holds reach In P memo →
      Memo.Holds reach In P (codebase.probe reach budget [] e memo).memo)
    {history : List Request} (hhistory : ∀ request ∈ history, codebase.HasExpr request.expr) :
    Memo.Holds reach In P (codebase.memoAfter history) := by
  apply Codebase.memoAfter_kept
  · intro e ty _ hget
    simp at hget
  · intro request hrequest memo h
    exact hclosed.inferFresh_kept hIn hasks hinside (fun hkey h => h.insert_other hkey _)
      request.reach (hhistory request hrequest) h

end Holds

end LuaTypes
