import LuaTypes.Proofs.Inference.Region

/-!
# Inference of flowing expressions

Below a path of flowing expressions, a flowing expression is found to have at least the alternatives
that it sees and at most those that it yields; the memo may cut the search short, but only with what
is yielded. Final answers are those of requests of their own, and from no path on what is seen is
what is yielded. So whatever is written to the memo is exact.

* `Finding.Meets`: what comes of an inquiry while the memo keeps an invariant;
* `Region.Exact`, `Region.Bounded`: what is found of a flowing expression, from no path and from a
  path on;
* `Region.Keeps`: the invariants of memos that are kept by writing exact types;
* `Region.probe_exact`: requests of their own find exact types.
-/

namespace LuaTypes

/-- An inquiry that keeps an invariant of the memo, and unless the budget was used up gives
something with a property. -/
structure Finding.Meets {α : Type} (Inv : Option Memo → Prop) (P : α → Prop) (found : Finding α) :
    Prop where
  memo : Inv found.memo
  outcome : found.outcome = .exhausted ∨ ∃ value, found.outcome = .value value ∧ P value

namespace Finding.Meets

variable {α β : Type} {Inv : Option Memo → Prop} {P Q : α → Prop} {found other : Finding α}

theorem mono (h : found.Meets Inv P) (hPQ : ∀ value, P value → Q value) : found.Meets Inv Q := by
  refine ⟨h.memo, ?_⟩
  rcases h.outcome with hout | ⟨value, hvalue, hP⟩
  · exact Or.inl hout
  · exact Or.inr ⟨value, hvalue, hPQ value hP⟩

/-- Only the outcome and the memo count. -/
theorem of_eq (h : found.Meets Inv P) (houtcome : other.outcome = found.outcome)
    (hmemo : other.memo = found.memo) : other.Meets Inv P := by
  constructor
  · rw [hmemo]
    exact h.memo
  · rw [houtcome]
    exact h.outcome

theorem of_value (h : found.Meets Inv P) {value : α} (hvalue : found.outcome = .value value) :
    P value := by
  rcases h.outcome with hout | ⟨value', hout, hP⟩
  · rw [hvalue] at hout
    cases hout
  · rw [hvalue] at hout
    cases hout
    exact hP

theorem not_failed (h : found.Meets Inv P) (foreign : ForeignKind) :
    found.outcome ≠ .failed foreign := by
  rintro hout
  rcases h.outcome with h | ⟨value, h, -⟩ <;> rw [hout] at h <;> cases h

/-- Leaving a frame keeps the invariant if writing what is final does. -/
theorem leave {P : Ty → Prop} {found : Finding Ty} (h : found.Meets Inv P) {key : MemoKey}
    {depth : Nat} (hwrite : ∀ ty, found.outcome = .value ty → found.isFinalAt depth = true →
      Inv (found.memo.map (·.insert key ty))) : (found.leave key depth).Meets Inv P := by
  exact ⟨Finding.leave_memo_kept Inv h.memo hwrite, h.outcome⟩

end Finding.Meets

namespace Inquiry

variable {α β : Type} {Inv : Option Memo → Prop} {look : Looker}

/-- The question for one expression comes to what is found of it. -/
theorem meets_ask {P : Ty → Prop} {Q : α → Prop} {e : Filed Expr} {next : Ty → Inquiry α}
    {memo : Option Memo} (h : (look e memo).Meets Inv P)
    (hnext : ∀ ty memo', P ty → Inv memo' → ((next ty).probe look memo').Meets Inv Q) :
    ((Inquiry.ask e next).probe look memo).Meets Inv Q := by
  simp only [Inquiry.probe]
  cases hout : (look e memo).outcome with
  | value ty => exact (hnext ty _ (h.of_value hout) h.memo).of_eq rfl rfl
  | failed foreign => exact absurd hout (h.not_failed foreign)
  | exhausted => exact ⟨h.memo, Or.inl rfl⟩

theorem meets_typeOf {P : Ty → Prop} {e : Filed Expr} {memo : Option Memo}
    (h : (look e memo).Meets Inv P) : ((Inquiry.typeOf e).probe look memo).Meets Inv P := by
  apply meets_ask h
  intro ty memo' hP hInv
  exact ⟨hInv, Or.inr ⟨ty, rfl, hP⟩⟩

theorem meets_bind {P : α → Prop} {Q : β → Prop} {inquiry : Inquiry α} {f : α → Inquiry β}
    {memo : Option Memo} (h : (inquiry.probe look memo).Meets Inv P)
    (hf : ∀ a memo', P a → Inv memo' → ((f a).probe look memo').Meets Inv Q) :
    ((inquiry >>= f).probe look memo).Meets Inv Q := by
  induction inquiry generalizing memo with
  | done value => exact hf value memo (h.of_value rfl) h.memo
  | fail foreign => exact absurd rfl (h.not_failed foreign)
  | ask e next ih =>
    simp only [ask_bind, Inquiry.probe] at h ⊢
    cases hout : (look e memo).outcome with
    | value ty =>
      rw [hout] at h
      exact (ih ty (h.of_eq rfl rfl)).of_eq rfl rfl
    | failed foreign =>
      rw [hout] at h
      exact absurd rfl (h.not_failed foreign)
    | exhausted =>
      rw [hout] at h
      exact ⟨h.memo, Or.inl rfl⟩

end Inquiry

namespace Region

variable {codebase : Codebase} {reach : Reach} (region : Region codebase reach)

/-- A proper type with the alternatives that an expression yields. -/
structure Exact (e : Filed Expr) (ty : Ty) : Prop where
  proper : ty.isProper = true
  has_iff : ∀ alt, ty.Has alt ↔ region.Yields e alt

/-- A proper type with what an expression sees below a path, and with nothing but what it yields. -/
structure Bounded (path : List (Filed Expr)) (e : Filed Expr) (ty : Ty) : Prop where
  proper : ty.isProper = true
  lower : ∀ alt, region.Sees path e alt → ty.Has alt
  upper : ∀ alt, ty.Has alt → region.Yields e alt

/-- The alternatives that come from a source below a path. -/
def Offers (path : List (Filed Expr)) : Source → Ty → Prop
  | .type ty, alt => ty.Has alt
  | .expr other, alt =>
    (region.flow other = none ∧ (codebase.typeAlone reach other).Has alt) ∨
      ((region.flow other).isSome ∧ region.Sees path other alt)

/-- What is found of a source of an expression, in its frame on top of a path. -/
structure BoundedSource (path : List (Filed Expr)) (e : Filed Expr) (source : Source) (ty : Ty) :
    Prop where
  proper : ty.isProper = true
  lower : ∀ alt, region.Offers path source alt → ty.Has alt
  upper : ∀ alt, ty.Has alt → region.Yields e alt

/-- An invariant of memos that hold exact types of flowing expressions, kept by writing such. -/
structure Keeps (Inv : Option Memo → Prop) : Prop where
  entry : ∀ {memo e ty}, Inv memo → region.In e → (region.flow e).isSome →
    memo.bind (·.get? ⟨Expr.key e, reach⟩) = some ty → region.Exact e ty
  write : ∀ {memo e ty}, Inv memo → region.In e → (region.flow e).isSome → region.Exact e ty →
    Inv (memo.map (·.insert ⟨Expr.key e, reach⟩ ty))

/-- Within a budget, a request of its own finds of every expression without a flow what it would
find alone. -/
def SteadyWithin (Inv : Option Memo → Prop) (budget : Nat) : Prop :=
  ∀ {e memo}, region.In e → region.flow e = none → Inv memo →
    (codebase.probe reach budget [] e memo).Meets Inv fun ty =>
      ty.Agree (codebase.typeAlone reach e)

/-- Within a budget, bounded types are found in the frames of flowing expressions. -/
def BoundedWithin (Inv : Option Memo → Prop) (budget : Nat) : Prop :=
  ∀ {path e memo}, region.In e → (region.flow e).isSome → region.LeadsTo path e → e ∉ path →
    Inv memo →
      (codebase.inside reach budget (path.map Expr.key) e memo).Meets Inv (region.Bounded path e)

variable {region} {Inv : Option Memo → Prop}

/-- From no path on, bounded types are exact. -/
theorem Bounded.exact (hclosed : codebase.Closed) {e : Filed Expr} (he : region.In e) {ty : Ty}
    (h : region.Bounded [] e ty) : region.Exact e ty := by
  refine ⟨h.proper, ?_⟩
  intro alt
  constructor
  · exact h.upper alt
  · rw [← sees_iff_yields hclosed he]
    exact h.lower alt

theorem Exact.of_agree {e : Filed Expr} {ty ty' : Ty} (h : region.Exact e ty)
    (hagree : ty'.Agree ty) : region.Exact e ty' := by
  refine ⟨hagree.left, ?_⟩
  intro alt
  rw [hagree.has_iff, h.has_iff]

theorem Exact.agree {e : Filed Expr} {ty ty' : Ty} (h : region.Exact e ty)
    (h' : region.Exact e ty') : ty.Agree ty' := by
  apply Ty.agree_of_has h.proper h'.proper
  intro alt
  rw [h.has_iff, h'.has_iff]

theorem Exact.bounded {path : List (Filed Expr)} {e : Filed Expr} (he : region.In e)
    (hpath : region.LeadsTo path e) {ty : Ty} (h : region.Exact e ty) :
    region.Bounded path e ty := by
  refine ⟨h.proper, ?_, ?_⟩
  · intro alt hsees
    rw [h.has_iff]
    exact hsees.yields he hpath
  · intro alt halt
    rwa [← h.has_iff]

/-- An expression that is under way is unknown. -/
theorem bounded_unknown {path : List (Filed Expr)} {e : Filed Expr} (hpath : region.LeadsTo path e)
    (hmem : e ∈ path) : region.Bounded path e .unknown := by
  refine ⟨rfl, ?_, ?_⟩
  · intro alt hsees
    rw [Ty.has_iff_agree rfl]
    cases hsees with
    | again _ halt => exact halt
    | leaf hnew _ => exact absurd hmem hnew
    | step hnew _ _ => exact absurd hmem hnew
  · intro alt halt
    rw [Ty.has_iff_agree rfl] at halt
    exact .cycle .refl (hpath e hmem).2 halt

/-- The key of a region's expression is on a path of such expressions only if it is on the path
itself. -/
theorem mem_of_key_mem (hclosed : codebase.Closed) {path : List (Filed Expr)} {e : Filed Expr}
    (he : codebase.HasExpr e) (hpath : ∀ p ∈ path, region.In p)
    (h : Expr.key e ∈ path.map Expr.key) : e ∈ path := by
  obtain ⟨p, hp, hkey⟩ := List.mem_map.1 h
  rwa [← hclosed.eq_of_key (region.hasExpr (hpath p hp)) he hkey]

/-- Below a path, what the frame on top of it finds is found, and written if it is final. -/
theorem probe_bounded (hclosed : codebase.Closed) (hkeeps : region.Keeps Inv) {budget : Nat}
    (h : region.BoundedWithin Inv budget) {path : List (Filed Expr)} {e : Filed Expr}
    (he : region.In e) (hflow : (region.flow e).isSome) (hpath : region.LeadsTo path e)
    {memo : Option Memo} (hmemo : Inv memo) :
    (codebase.probe reach budget (path.map Expr.key) e memo).Meets Inv (region.Bounded path e) := by
  rcases codebase.probe_cases reach budget (path.map Expr.key) e memo with
    ⟨ty, hknown, hprobe⟩ | ⟨depth, -, hdepth, hprobe⟩ | ⟨-, hnew, hprobe⟩ <;> rw [hprobe]
  · exact ⟨hmemo, Or.inr ⟨ty, rfl, (hkeeps.entry hmemo he hflow hknown).bounded he hpath⟩⟩
  · have hmem : Expr.key e ∈ path.map Expr.key := by
      by_contra hnot
      rw [depthOf_eq_none_iff.2 hnot] at hdepth
      cases hdepth
    have hon := mem_of_key_mem hclosed (region.hasExpr he) (fun p hp => (hpath p hp).1) hmem
    exact ⟨hmemo, Or.inr ⟨.unknown, rfl, bounded_unknown hpath hon⟩⟩
  · have hoff : e ∉ path := fun hmem => hnew (List.mem_map_of_mem hmem)
    have hinside := h he hflow hpath hoff hmemo
    apply hinside.leave
    intro ty hout hfinal
    -- a final answer is that of a request of its own, which is exact
    have heq := Codebase.inside_append budget [] (path.map Expr.key) e memo (by simpa using hfinal)
    have hfresh := h he hflow (.nil e) (by simp) hmemo
    rw [List.nil_append] at heq
    rw [heq] at hout
    exact hkeeps.write hinside.memo he hflow ((hfresh.of_value hout).exact hclosed he)

/-! ### One step of a flow -/

theorem transGen_asks {e other : Filed Expr} (he : region.In e)
    (h : Relation.TransGen region.Step e other) :
    Relation.TransGen (codebase.Asks reach) e other ∧ region.In other := by
  induction h with
  | single hstep => exact ⟨.single (hstep.asks he), region.asks he (hstep.asks he)⟩
  | tail _ hstep ih => exact ⟨ih.1.tail (hstep.asks ih.2), region.asks ih.2 (hstep.asks ih.2)⟩

/-- An expression without a flow is out of reach of whatever leads to it. -/
theorem steady_unreached (hclosed : codebase.Closed) {path : List (Filed Expr)}
    {e other : Filed Expr} (he : region.In e) (hpath : region.LeadsTo path e)
    (hasks : codebase.Asks reach e other) (hsteady : region.flow other = none) :
    ∀ third, codebase.Reaches reach other third → Expr.key third ∉ (e :: path).map Expr.key := by
  intro third hthird hkey
  have hother := region.asks he hasks
  have hin : ∀ p ∈ e :: path, region.In p ∧ Relation.TransGen (codebase.Asks reach) p other := by
    intro p hp
    rcases List.mem_cons.1 hp with rfl | hp
    · exact ⟨he, .single hasks⟩
    · exact ⟨(hpath p hp).1, (transGen_asks (hpath p hp).1 (hpath p hp).2).1.tail hasks⟩
  have hmem := mem_of_key_mem hclosed (hclosed.hasExpr_of_reaches (region.hasExpr hother) hthird)
    (fun p hp => (hin p hp).1) hkey
  exact region.steady hother hsteady (Relation.TransGen.trans_right hthird (hin third hmem).2)

theorem source_bounded (hclosed : codebase.Closed) (hkeeps : region.Keeps Inv) {budget : Nat}
    (hsteady : region.SteadyWithin Inv budget) (h : region.BoundedWithin Inv budget)
    {path : List (Filed Expr)} {e : Filed Expr} {flow : Flow} (he : region.In e)
    (hflow : region.flow e = some flow) (hpath : region.LeadsTo path e) {source : Source}
    (hsource : source ∈ flow.sources) {memo : Option Memo} (hmemo : Inv memo) :
    (source.inquiry.probe (codebase.probe reach budget ((e :: path).map Expr.key)) memo).Meets Inv
      (region.BoundedSource (e :: path) e source) := by
  cases source with
  | type ty =>
    refine ⟨hmemo, Or.inr ⟨ty, rfl, region.proper he hflow hsource, fun alt halt => halt, ?_⟩⟩
    intro alt halt
    exact .leaf .refl (.type hflow hsource halt)
  | expr other =>
    have hasks : codebase.Asks reach e other := by
      rw [Codebase.Asks, region.typeOf_eq he hflow]
      exact Flow.mayAsk_of_source hsource
    apply Inquiry.meets_typeOf
    cases hother : region.flow other with
    | none =>
      have hfar := steady_unreached hclosed he hpath hasks hother
      obtain ⟨hout, hmemo'⟩ := Codebase.probe_unreached budget memo hfar
      have hagrees := hsteady (region.asks he hasks) hother hmemo
      refine (hagrees.mono ?_).of_eq hout hmemo'
      intro ty hagree
      refine ⟨hagree.left, ?_, ?_⟩
      · rintro alt (⟨-, halt⟩ | ⟨hsome, -⟩)
        · exact hagree.symm.has halt
        · simp [hother] at hsome
      · intro alt halt
        exact .leaf .refl (.exit hflow hsource hother (hagree.has halt))
    | some flow' =>
      have hsome : (region.flow other).isSome := by simp [hother]
      have hstep : region.Step e other := ⟨flow, hflow, hsource, hsome⟩
      have hfound := probe_bounded hclosed hkeeps h (region.asks he hasks) hsome
        (hpath.step he hstep) hmemo
      apply hfound.mono
      intro ty hbounded
      refine ⟨hbounded.proper, ?_, ?_⟩
      · rintro alt (⟨hnone, -⟩ | ⟨-, hsees⟩)
        · simp [hother] at hnone
        · exact hbounded.lower alt hsees
      · intro alt halt
        exact (hbounded.upper alt halt).head hstep

theorem exists_offer {path : List (Filed Expr)} {e : Filed Expr} {flow : Flow}
    (hflow : region.flow e = some flow) (hnew : e ∉ path) {alt : Ty} (h : region.Sees path e alt) :
    ∃ source ∈ flow.sources, region.Offers (e :: path) source alt := by
  cases h with
  | again hmem _ => exact absurd hmem hnew
  | leaf _ hshows =>
    cases hshows with
    | type hflow' hmem halt =>
      cases hflow.symm.trans hflow'
      exact ⟨_, hmem, halt⟩
    | exit hflow' hmem hsteady halt =>
      cases hflow.symm.trans hflow'
      exact ⟨_, hmem, Or.inl ⟨hsteady, halt⟩⟩
  | step _ hstep hsees =>
    obtain ⟨flow', hflow', hmem, hsome⟩ := hstep
    cases hflow.symm.trans hflow'
    exact ⟨_, hmem, Or.inr ⟨hsome, hsees⟩⟩

/-- What is found of the sources together is bounded. -/
theorem flow_bounded (hclosed : codebase.Closed) (hkeeps : region.Keeps Inv) {budget : Nat}
    (hsteady : region.SteadyWithin Inv budget) (h : region.BoundedWithin Inv budget)
    {path : List (Filed Expr)} {e : Filed Expr} {flow : Flow} (he : region.In e)
    (hflow : region.flow e = some flow) (hpath : region.LeadsTo path e) (hnew : e ∉ path)
    {memo : Option Memo} (hmemo : Inv memo) :
    (flow.inquiry.probe (codebase.probe reach budget ((e :: path).map Expr.key)) memo).Meets Inv
      (region.Bounded path e) := by
  have hsource := fun {source} (hmem : source ∈ flow.sources) {memo} (hmemo : Inv memo) =>
    source_bounded hclosed hkeeps hsteady h he hflow hpath hmem hmemo
  cases flow with
  | one source =>
    apply (hsource List.mem_cons_self hmemo).mono
    intro ty hty
    refine ⟨hty.proper, ?_, hty.upper⟩
    intro alt hsees
    obtain ⟨source', hmem, hoffer⟩ := exists_offer hflow hnew hsees
    cases List.mem_singleton.1 hmem
    exact hty.lower alt hoffer
  | both first second =>
    apply Inquiry.meets_bind (hsource List.mem_cons_self hmemo)
    intro a memo' ha hmemo'
    apply Inquiry.meets_bind (hsource (List.mem_cons_of_mem _ List.mem_cons_self) hmemo')
    intro b memo'' hb hmemo''
    refine ⟨hmemo'', Or.inr ⟨a.join b, rfl, Ty.isProper_join ha.proper hb.proper, ?_, ?_⟩⟩
    · intro alt hsees
      obtain ⟨source', hmem, hoffer⟩ := exists_offer hflow hnew hsees
      rw [Ty.has_join ha.proper hb.proper]
      rcases List.mem_cons.1 hmem with rfl | hmem
      · exact Or.inl (ha.lower alt hoffer)
      · cases List.mem_singleton.1 hmem
        exact Or.inr (hb.lower alt hoffer)
    · intro alt halt
      rw [Ty.has_join ha.proper hb.proper] at halt
      rcases halt with halt | halt
      · exact ha.upper alt halt
      · exact hb.upper alt halt

theorem boundedWithin_zero : region.BoundedWithin Inv 0 := by
  intro path e memo he hflow hpath hnew hmemo
  exact ⟨hmemo, Or.inl rfl⟩

theorem boundedWithin_succ (hclosed : codebase.Closed) (hkeeps : region.Keeps Inv) {budget : Nat}
    (hsteady : region.SteadyWithin Inv budget) (h : region.BoundedWithin Inv budget) :
    region.BoundedWithin Inv (budget + 1) := by
  intro path e memo he hflow hpath hnew hmemo
  obtain ⟨flow, hflow⟩ := Option.isSome_iff_exists.1 hflow
  rw [Codebase.inside_succ, region.typeOf_eq he hflow]
  exact flow_bounded hclosed hkeeps hsteady h he hflow hpath hnew hmemo

/-- Requests of their own find exact types of flowing expressions. -/
theorem probe_exact (hclosed : codebase.Closed) (hkeeps : region.Keeps Inv) {budget : Nat}
    (h : region.BoundedWithin Inv budget) {e : Filed Expr} (he : region.In e)
    (hflow : (region.flow e).isSome) {memo : Option Memo} (hmemo : Inv memo) :
    (codebase.probe reach budget [] e memo).Meets Inv (region.Exact e) := by
  apply (probe_bounded hclosed hkeeps h he hflow (.nil e) hmemo).mono
  intro ty hty
  exact hty.exact hclosed he

end Region

end LuaTypes
