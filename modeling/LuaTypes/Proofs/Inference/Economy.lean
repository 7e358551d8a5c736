import LuaTypes.Proofs.Inference.Course
import LuaTypes.Proofs.Inference.Depth
import LuaTypes.Proofs.Inference.Unguarded

/-!
# Work that is done once

Requests share a memo so that what one of them has found the others need not find again. Where an
expression depends on no cycle this is what happens, even if expressions around it are cut short: no
refusal is told to its frame, so its type is kept when the frame is left, and nobody enters it
again. Nor is it entered before that from within its own frame, where it is under way.

* `Codebase.inside_cut_of_settled`: no refusal is told to the frame of a settled expression;
* `EnteredOnce`: what holds of one expression and the calls of a request;
  `Codebase.EntersOnce.ask`: one question after the other; `Codebase.enteredOnce_of_frame`: from a
  frame to the request; `Codebase.enteredOnce_callsWithin`: every request;
* `Codebase.entered`: what a history of requests enters, an output of their courses;
* `Project.settled_entered_once`: an expression that meets no refusal is entered once at most.
-/

namespace LuaTypes

/-- A memo holds a type under a key. -/
def Memo.Knows (key : MemoKey) (memo : Option Memo) : Prop :=
  ∃ ty, memo.bind (·.get? key) = some ty

theorem Memo.GrowsTo.knows {before after : Option Memo} (h : Memo.GrowsTo before after)
    {key : MemoKey} (hknows : Memo.Knows key before) : Memo.Knows key after := by
  obtain ⟨ty, hget⟩ := hknows
  exact ⟨ty, h key ty hget⟩

namespace Codebase

variable {codebase : Codebase} {reach : Reach}

/-! ### Frames of settled expressions -/

/-- No refusal is told to the frame of a settled expression. -/
theorem inside_cut_of_settled (hclosed : codebase.Closed) {budget : Nat} {path : List Key}
    {e : Filed Expr} (he : codebase.HasExpr e) (hpath : codebase.SettlesLater reach path e)
    {ty : Ty} (hsettled : codebase.Settled reach e ty) {memo : Option Memo}
    (hmemo : Memo.IsFaithful codebase memo) :
    (codebase.inside reach budget path e memo).cut = none := by
  induction budget generalizing path e ty memo with
  | zero => rfl
  | succ budget ih =>
    rw [inside_succ]
    refine rule_induction (motive := fun inquiry memo => (inquiry.probe
      (codebase.probe reach budget (Expr.key e :: path)) memo).cut = none)
      (faithful_inside hclosed he hpath budget) (fun _ _ _ _ => rfl) ?_ (hclosed.typeOf reach he)
      (fun _ _ h => h) hmemo
    intro other next memo' hother hmemo' hbefore hnext
    have hlater := hpath.cons hclosed he hbefore
    obtain ⟨tyo, hsettledOther⟩ := hbefore.settled hsettled
    have hcut : (codebase.probe reach budget (Expr.key e :: path) other memo').cut = none := by
      rcases codebase.probe_cases reach budget (Expr.key e :: path) other memo' with
        ⟨_, -, hprobe⟩ | ⟨depth, -, hdepth, -⟩ | ⟨-, -, hprobe⟩
      · rw [hprobe]
      · rw [depthOf_eq_none_iff.2 (hlater.not_mem hother hsettledOther)] at hdepth
        cases hdepth
      · rw [hprobe, Finding.leave, ih hother hlater hsettledOther hmemo']
        rfl
    simp only [Inquiry.probe]
    cases hout : (codebase.probe reach budget (Expr.key e :: path) other memo').outcome with
    | value ty' => simp only [Finding.after, hcut, hnext ty' hout, Option.merge]
    | failed foreign => exact hcut
    | exhausted => exact hcut

/-- The type of a settled expression is kept when its frame is left. -/
theorem leave_knows_of_settled (hclosed : codebase.Closed) {budget : Nat} {path : List Key}
    {e : Filed Expr} (he : codebase.HasExpr e) (hpath : codebase.SettlesLater reach path e)
    {ty : Ty} (hsettled : codebase.Settled reach e ty) {memo : Option Memo}
    (hmemo : Memo.IsFaithful codebase memo) (hused : memo.isSome = true) {ty' : Ty}
    (hout : (codebase.inside reach budget path e memo).outcome = .value ty') :
    Memo.Knows ⟨Expr.key e, reach⟩ ((codebase.inside reach budget path e memo).leave
      ⟨Expr.key e, reach⟩ path.length).memo := by
  have hcut : (codebase.inside reach budget path e memo).cut = none :=
    inside_cut_of_settled hclosed he hpath hsettled hmemo
  have hstill := (codebase.inside_growsOff reach budget path e memo).used
  rw [hused] at hstill
  obtain ⟨inner, hinner⟩ := Option.isSome_iff_exists.1 hstill
  refine ⟨ty', ?_⟩
  simp [Finding.leave, Finding.isFinalAt, hcut, hout, hinner, Memo.get?_insert]

end Codebase

/-! ### Entered once -/

/-- The expression of a key is entered once at most, and not at all if its type is known before; and
if it is entered, its type is known when a value has been found. -/
structure EnteredOnce {α : Type} (key : MemoKey) (before : Option Memo) (calls : List Call)
    (found : Finding α) : Prop where
  known : Memo.Knows key before → (Call.entered calls).count key = 0
  once : (Call.entered calls).count key ≤ 1
  kept : (Call.entered calls).count key ≠ 0 → ∀ a, found.outcome = .value a →
    Memo.Knows key found.memo

namespace EnteredOnce

variable {α : Type} {key : MemoKey} {before : Option Memo} {calls more : List Call}

/-- Calls that do not enter the expression. -/
theorem of_count_eq_zero (h : (Call.entered calls).count key = 0) (found : Finding α) :
    EnteredOnce key before calls found :=
  ⟨fun _ => h, by omega, fun hne => (hne h).elim⟩

/-- What comes after a value that was found enters the expression only if that did not. -/
theorem append {first : Finding Ty} {rest : Finding α}
    (hfirst : EnteredOnce key before calls first) (hgrows : Memo.GrowsTo before first.memo)
    {ty : Ty} (hout : first.outcome = .value ty) (hrest : EnteredOnce key first.memo more rest)
    (hlater : Memo.GrowsTo first.memo rest.memo) : EnteredOnce key before (calls ++ more) rest := by
  have hnever : (Call.entered calls).count key ≠ 0 → (Call.entered more).count key = 0 :=
    fun hne => hrest.known (hfirst.kept hne ty hout)
  have honce := hfirst.once
  have honceRest := hrest.once
  constructor
  · intro hknows
    rw [Call.entered_append, List.count_append, hfirst.known hknows,
      hrest.known (hgrows.knows hknows)]
  · rw [Call.entered_append, List.count_append]
    omega
  · intro hne a hvalue
    rw [Call.entered_append, List.count_append] at hne
    by_cases hzero : (Call.entered calls).count key = 0
    · exact hrest.kept (by omega) a hvalue
    · exact hlater.knows (hfirst.kept hzero ty hout)

end EnteredOnce

namespace Codebase

variable {codebase : Codebase} {key : MemoKey} {reach : Reach} {budget : Nat} {path : List Key}

variable (codebase key reach budget path) in
/-- An inquiry that is made on a path enters an expression once at most. -/
def EntersOnce {α : Type} (inquiry : Inquiry α) (memo : Option Memo) : Prop :=
  ∀ trail : Trail, trail.Consistent → trail.reach = reach → trail.keys = path →
    EnteredOnce key memo
      (inquiry.calls (codebase.inferWithin budget) (codebase.callsWithin budget) ⟨trail, memo⟩)
      (inquiry.probe (codebase.probe reach budget path) memo)

/-- An inquiry enters an expression once if its first question and what is left of it do so. -/
theorem EntersOnce.ask {α : Type} {e : Filed Expr} {next : Ty → Inquiry α} {memo : Option Memo}
    (hfirst : ∀ {trail : Trail}, trail.Consistent → trail.reach = reach → trail.keys = path →
      EnteredOnce key memo (codebase.callsWithin budget e ⟨trail, memo⟩)
        (codebase.probe reach budget path e memo))
    (hnext : ∀ ty, (codebase.probe reach budget path e memo).outcome = .value ty →
      codebase.EntersOnce key reach budget path (next ty)
        (codebase.probe reach budget path e memo).memo) :
    codebase.EntersOnce key reach budget path (.ask e next) memo := by
  intro trail htrail hreach hkeys
  have honce := hfirst htrail hreach hkeys
  simp only [Inquiry.calls, Inquiry.probe, codebase.inferWithin_eq budget htrail, Finding.onto,
    hreach, hkeys]
  cases hout : (codebase.probe reach budget path e memo).outcome with
  | value ty =>
    have hcut := htrail.cutBy (codebase.probe reach budget path e memo).cut
    have hrest := hnext ty hout _ hcut (by simpa using hreach) (by simpa using hkeys)
    have hlater := (Inquiry.probe_growsOff (codebase.probe_growsOff reach budget path) (next ty)
      (codebase.probe reach budget path e memo).memo).grows
    -- what was cut before the answer shows in neither outcome nor memo
    have hboth :=
      honce.append (codebase.probe_growsOff reach budget path e memo).grows hout hrest hlater
    exact ⟨hboth.known, hboth.once, hboth.kept⟩
  | failed foreign =>
    rw [List.append_nil]
    refine ⟨honce.known, honce.once, fun _ a hvalue => ?_⟩
    cases hvalue
  | exhausted =>
    rw [List.append_nil]
    refine ⟨honce.known, honce.once, fun _ a hvalue => ?_⟩
    cases hvalue

/-- What is under way is not entered again. -/
theorem count_entered_of_mem (h : codebase.Legible) {inquiry : Inquiry Ty}
    (hwithin : inquiry.Within codebase.HasExpr) {trail : Trail} (htrail : trail.Consistent)
    (hkey : key.expr ∈ trail.keys) (memo : Option Memo) :
    (Call.entered (inquiry.calls (codebase.inferWithin budget) (codebase.callsWithin budget)
      ⟨trail, memo⟩)).count key = 0 := by
  rw [List.count_eq_zero, Call.entered, List.mem_map]
  rintro ⟨call, hcall, rfl⟩
  obtain ⟨hcall, hentered⟩ := List.mem_filter.1 hcall
  have honpath : call.OnPath codebase trail.keys := by
    refine calls_onPath hwithin ?_ htrail (List.nil_append _).symm memo call hcall
    intro e trail' memo' he htrail' hkeys'
    exact h.callsWithin_onPath budget he .nil htrail' hkeys' memo'
  obtain ⟨e, callTrail, callMemo⟩ := call
  obtain ⟨hcallTrail, -, above, -, hkeys⟩ := honpath
  refine ((isEntered_iff hcallTrail).1 hentered).2 ?_
  rw [hkeys]
  exact List.mem_append_right _ hkey

/-- A request enters an expression once if what goes on in its frame does so. The frame of that
expression itself is not to enter it, and to leave its type known. -/
theorem enteredOnce_of_frame {e : Filed Expr} {trail : Trail} (htrail : trail.Consistent)
    {memo : Option Memo}
    (hself : Expr.key e ∉ trail.keys → ⟨Expr.key e, trail.reach⟩ = key →
      (Call.entered (codebase.frameCalls budget e ⟨trail, memo⟩)).count key = 0 ∧
        ∀ ty, (codebase.inside trail.reach budget trail.keys e memo).outcome = .value ty →
          Memo.Knows key ((codebase.inside trail.reach budget trail.keys e memo).leave
            ⟨Expr.key e, trail.reach⟩ trail.keys.length).memo)
    (hother : Expr.key e ∉ trail.keys → ⟨Expr.key e, trail.reach⟩ ≠ key →
      EnteredOnce key memo (codebase.frameCalls budget e ⟨trail, memo⟩)
        (codebase.inside trail.reach budget trail.keys e memo)) :
    EnteredOnce key memo (codebase.callsWithin budget e ⟨trail, memo⟩)
      (codebase.probe trail.reach budget trail.keys e memo) := by
  rw [callsWithin_eq]
  cases hentered : (Call.mk e ⟨trail, memo⟩).isEntered with
  | false => exact .of_count_eq_zero (by simp [Call.entered, hentered]) _
  | true =>
    obtain ⟨hnone, hpath⟩ := (isEntered_iff htrail).1 hentered
    rw [if_pos rfl, probe_of_entered hnone hpath]
    by_cases hkey : (⟨Expr.key e, trail.reach⟩ : MemoKey) = key
    · obtain ⟨hzero, hkept⟩ := hself hpath hkey
      have hone : (Call.entered (⟨e, ⟨trail, memo⟩⟩ ::
          codebase.frameCalls budget e ⟨trail, memo⟩)).count key = 1 := by
        rw [Call.entered_cons, if_pos hentered, Call.memoKey, hkey, List.count_cons_self, hzero]
      refine ⟨?_, hone.le, fun _ => hkept⟩
      rintro ⟨ty, hget⟩
      rw [← hkey, hnone] at hget
      cases hget
    · have hsame : (Call.entered (⟨e, ⟨trail, memo⟩⟩ ::
          codebase.frameCalls budget e ⟨trail, memo⟩)).count key =
            (Call.entered (codebase.frameCalls budget e ⟨trail, memo⟩)).count key := by
        rw [Call.entered_cons, if_pos hentered, Call.memoKey, List.count_cons_of_ne hkey]
      obtain ⟨hknown, honce, hkept⟩ := hother hpath hkey
      rw [← hsame] at hknown honce hkept
      have hoff := (codebase.inside_growsOff trail.reach budget trail.keys e memo).off _
        List.mem_cons_self hnone
      have hgrows := (Finding.leave_growsOff hoff hpath trail.keys.length).grows
      exact ⟨hknown, honce, fun hne ty hout => hgrows.knows (hkept hne ty hout)⟩

/-- Every request enters a settled expression once at most, and leaves its type known if it does.
The induction is on the budget. -/
theorem enteredOnce_callsWithin (hclosed : codebase.Closed) {settled : Filed Expr}
    (hexpr : codebase.HasExpr settled) {ty : Ty} (hsettled : codebase.Settled reach settled ty)
    {e : Filed Expr} (he : codebase.HasExpr e) {trail : Trail} (htrail : trail.Consistent)
    (hlater : codebase.SettlesLater trail.reach trail.keys e) {memo : Option Memo}
    (hmemo : Memo.IsFaithful codebase memo) (hused : memo.isSome = true) :
    EnteredOnce ⟨Expr.key settled, reach⟩ memo (codebase.callsWithin budget e ⟨trail, memo⟩)
      (codebase.probe trail.reach budget trail.keys e memo) := by
  induction budget generalizing e trail memo with
  | zero =>
    refine enteredOnce_of_frame htrail (fun _ _ => ⟨rfl, fun _ hvalue => ?_⟩) fun _ _ =>
      .of_count_eq_zero rfl _
    cases hvalue
  | succ budget ih =>
    apply enteredOnce_of_frame htrail
    · intro hpath hkey
      obtain ⟨hexprKey, hreach⟩ := MemoKey.mk.inj hkey
      subst hreach
      cases hclosed.eq_of_key he hexpr hexprKey
      have hpush := htrail.push (htrail.get?_active_eq_none_iff.2 hpath)
      refine ⟨?_, fun ty' hout => ?_⟩
      · exact count_entered_of_mem hclosed.legible (hclosed.typeOf trail.reach he) hpush
          List.mem_cons_self memo
      · exact leave_knows_of_settled hclosed he hlater hsettled hmemo hused hout
    · intro hpath _
      have hpush := htrail.push (htrail.get?_active_eq_none_iff.2 hpath)
      have hrule := rule_induction (motive := fun inquiry memo => memo.isSome = true →
        codebase.EntersOnce ⟨Expr.key settled, reach⟩ trail.reach budget
          (Expr.key e :: trail.keys) inquiry memo) (faithful_inside hclosed he hlater budget)
        (fun _ _ _ _ _ _ _ _ _ => .of_count_eq_zero rfl _) ?_ (hclosed.typeOf trail.reach he)
        (fun _ _ h => h) hmemo
      · exact hrule hused _ hpush rfl rfl
      · intro other next memo' hother hmemo' hbefore hnext hused'
        apply EntersOnce.ask
        · intro trail' htrail' hreach' hkeys'
          have hlater' : codebase.SettlesLater trail'.reach trail'.keys other := by
            rw [hreach', hkeys']
            exact hlater.cons hclosed he hbefore
          have honce := ih hother htrail' hlater' hmemo' hused'
          rwa [hreach', hkeys'] at honce
        · intro ty' hout
          have hstill := codebase.probe_growsOff trail.reach budget (Expr.key e :: trail.keys)
            other memo'
          exact hnext ty' hout (hstill.used.trans hused')

/-! ### Histories of requests -/

/-- Whatever is asked of a codebase on a trail without frames, a settled expression is entered once
at most. -/
theorem entersOnce_of_within (hclosed : codebase.Closed) {settled : Filed Expr}
    (hexpr : codebase.HasExpr settled) {ty : Ty} (hsettled : codebase.Settled reach settled ty)
    (reach' : Reach) {inquiry : Inquiry Ty} (hwithin : inquiry.Within codebase.HasExpr)
    {memo : Option Memo} (hmemo : Memo.IsFaithful codebase memo) (hused : memo.isSome = true) :
    codebase.EntersOnce ⟨Expr.key settled, reach⟩ reach' budget [] inquiry memo := by
  induction hwithin generalizing memo with
  | done value => exact fun _ _ _ _ => .of_count_eq_zero rfl _
  | @ask e next he _ ih =>
    apply EntersOnce.ask
    · intro trail htrail hreach hkeys
      have hlater : codebase.SettlesLater trail.reach trail.keys e := by
        rw [hkeys]
        exact settlesLater_nil e
      have honce : EnteredOnce ⟨Expr.key settled, reach⟩ memo
          (codebase.callsWithin budget e ⟨trail, memo⟩)
          (codebase.probe trail.reach budget trail.keys e memo) :=
        enteredOnce_callsWithin hclosed hexpr hsettled he htrail hlater hmemo hused
      rwa [hreach, hkeys] at honce
    · intro ty' _
      have hfound : Finding.Faithful codebase reach' e (codebase.probe reach' budget [] e memo) :=
        probe_faithful hclosed he (settlesLater_nil e) hmemo
      exact ih ty' hfound.memo ((codebase.probe_growsOff reach' budget [] e memo).used.trans hused)

/-- A request on a trail without frames leaves a faithful memo. -/
theorem faithful_inquiry (hclosed : codebase.Closed) (reach : Reach) (budget : Nat)
    {inquiry : Inquiry Ty} (hwithin : inquiry.Within codebase.HasExpr) {memo : Option Memo}
    (hmemo : Memo.IsFaithful codebase memo) :
    Memo.IsFaithful codebase (inquiry.probe (codebase.probe reach budget []) memo).memo := by
  refine rule_kept hwithin ?_ hmemo
  intro e memo' he hmemo'
  exact (probe_faithful hclosed he (settlesLater_nil e) hmemo').memo

/-- What requests of their own enter that come one after the other and share a memo. -/
def entered (codebase : Codebase) : List (Reach × Question) → Option Memo → List MemoKey
  | [], _ => []
  | (reach, question) :: rest, memo =>
    let course := Memo.store.ask codebase codebase.budget question (.fresh reach) memo
    course.entered ++ codebase.entered rest course.store

/-- A settled expression is entered once at most in a history, and not at all if its type is known
before. -/
theorem count_entered_le (hclosed : codebase.Closed) {settled : Filed Expr}
    (hexpr : codebase.HasExpr settled) {ty : Ty} (hsettled : codebase.Settled reach settled ty)
    {history : List (Reach × Question)}
    (hhistory : ∀ request ∈ history, codebase.HasQuestion request.2) {memo : Option Memo}
    (hmemo : Memo.IsFaithful codebase memo) (hused : memo.isSome = true) :
    (Memo.Knows ⟨Expr.key settled, reach⟩ memo →
      (codebase.entered history memo).count ⟨Expr.key settled, reach⟩ = 0) ∧
    (codebase.entered history memo).count ⟨Expr.key settled, reach⟩ ≤ 1 := by
  induction history generalizing memo with
  | nil => exact ⟨fun _ => rfl, Nat.zero_le 1⟩
  | cons request rest ih =>
    obtain ⟨reach', question⟩ := request
    obtain ⟨hquestion, hrest⟩ := List.forall_mem_cons.1 hhistory
    have hwithin : (question.inquiry codebase reach').Within codebase.HasExpr :=
      ((hclosed.legible.enclosure reach').inquiry hquestion).within
    have hfresh := Trail.consistent_fresh reach'
    have hrun : codebase.answer (question.inquiry codebase reach') (.fresh reach' memo) =
        ((question.inquiry codebase reach').probe (codebase.probe reach' codebase.budget [])
          memo).onto (.fresh reach') :=
      codebase.run_inferWithin_eq codebase.budget hfresh _ memo
    have hcourse : codebase.answer (question.inquiry codebase reach') (.fresh reach' memo) =
        (Memo.store.ask codebase codebase.budget question (.fresh reach') memo).ending :=
      Memo.run_eq (Memo.inferWithin_eq codebase codebase.budget) _ _
    have hstore := congrArg (·.2.memo) (hcourse.symm.trans hrun)
    obtain ⟨value, hvalue⟩ := (hclosed.legible.ends_of_within hfresh memo hwithin).value
    have honce : EnteredOnce ⟨Expr.key settled, reach⟩ memo
        ((question.inquiry codebase reach').calls codebase.infer codebase.calls
          (.fresh reach' memo))
        ((question.inquiry codebase reach').probe (codebase.probe reach' codebase.budget [])
          memo) :=
      entersOnce_of_within hclosed hexpr hsettled reach' hwithin hmemo hused _ hfresh rfl rfl
    have hlogged : (Memo.store.ask codebase codebase.budget question (.fresh reach') memo).IsLogged
        ((question.inquiry codebase reach').calls codebase.infer codebase.calls
          (.fresh reach' memo)) :=
      Memo.course_logged (Memo.inferWithin_logged codebase codebase.budget) _ _ memo
    have hgrows := Inquiry.probe_growsOff (codebase.probe_growsOff reach' codebase.budget [])
      (question.inquiry codebase reach') memo
    obtain ⟨hknown, hcount⟩ := ih hrest (faithful_inquiry hclosed reach' codebase.budget hwithin
      hmemo) (hgrows.used.trans hused)
    have hnever := fun hne =>
      hknown (honce.kept hne value ((congrArg Prod.fst hrun).symm.trans hvalue))
    have hfirst := honce.once
    simp only [entered, hlogged.entered, List.count_append]
    simp only [Course.ending, Finding.onto] at hstore
    rw [hstore]
    refine ⟨fun hknows => ?_, ?_⟩
    · rw [hknown (hgrows.grows.knows hknows)]
      exact honce.known hknows
    · omega

end Codebase

/-- An expression whose own inference, without a memo, meets no refusal is entered at most once in
its reach by a history of requests that share a memo, whatever they ask about and whichever cycles
they run into. -/
theorem Project.settled_entered_once (project : Project)
    (hmade : ∀ tree ∈ project.files, Made tree) (reach : Reach) (e : Filed Expr)
    (he : project.codebase.HasExpr e)
    (hcalls : ∀ call ∈ project.codebase.calls e (.fresh reach none), call.isRefused = false)
    (history : List (Reach × Question))
    (hhistory : ∀ request ∈ history, project.codebase.HasQuestion request.2) :
    (project.codebase.entered history (some .empty)).count ⟨Expr.key e, reach⟩ ≤ 1 := by
  have hclosed := Project.closed hmade
  obtain ⟨ty, hvalue⟩ := hclosed.inferFresh_value reach none he
  have hsettled : project.codebase.Settled reach e ty :=
    ⟨_, Codebase.unguarded_of_calls (Trail.consistent_fresh reach) hcalls hvalue⟩
  exact (Codebase.count_entered_le hclosed he hsettled hhistory (Memo.isFaithful_empty _) rfl).2

/-- A number in the initializer of a variable that begins with itself. Requests for the initializer
and for the number itself come to it, and only one enters it. -/
theorem Project.selfOrNumber_settled_entered_once :
    ∃ e around use, selfOrNumber.codebase.expr? ⟨0, 2⟩ = .ok (some e) ∧
      selfOrNumber.codebase.expr? ⟨0, 0⟩ = .ok (some around) ∧
      selfOrNumber.codebase.expr? ⟨0, 4⟩ = .ok (some use) ∧
      (∀ call ∈ selfOrNumber.codebase.calls e (.fresh .full none), call.isRefused = false) ∧
      let history : List (Reach × Question) := [(.full, .typeOf around), (.full, .typeOf use),
        (.ownFile, .typeOf e), (.full, .typeOf e)]
      (selfOrNumber.codebase.entered history (some .empty)).count ⟨Expr.key e, .full⟩ = 1 := by
  have htest : selfOrNumber.codebase.testAt ⟨0, 2⟩ (fun e =>
      selfOrNumber.codebase.testAt ⟨0, 0⟩ fun around =>
        selfOrNumber.codebase.testAt ⟨0, 4⟩ fun use =>
          (selfOrNumber.codebase.calls e (.fresh .full none)).all (!·.isRefused) &&
            (selfOrNumber.codebase.entered [(.full, .typeOf around), (.full, .typeOf use),
              (.ownFile, .typeOf e), (.full, .typeOf e)] (some .empty)).contains
                ⟨Expr.key e, .full⟩) = true := by
    decide +kernel
  have hclosed := Project.closed made_selfOrNumber
  obtain ⟨e, hexpr, he, htest⟩ := hclosed.exists_of_testAt htest
  obtain ⟨around, haround, hin, htest⟩ := hclosed.exists_of_testAt htest
  obtain ⟨use, huse, hinUse, htest⟩ := hclosed.exists_of_testAt htest
  obtain ⟨htest, hentered⟩ := Bool.and_eq_true_iff.1 htest
  have hcalls := Call.unrefused_of_all htest
  refine ⟨e, around, use, hexpr, haround, huse, hcalls, Nat.le_antisymm ?_ ?_⟩
  · refine selfOrNumber.settled_entered_once made_selfOrNumber .full e he hcalls _ ?_
    intro request hrequest
    simp only [List.mem_cons, List.not_mem_nil, or_false] at hrequest
    rcases hrequest with rfl | rfl | rfl | rfl
    · exact hin
    · exact hinUse
    · exact he
    · exact he
  · exact List.count_pos_iff.2 (List.contains_iff_mem.1 hentered)

end LuaTypes
