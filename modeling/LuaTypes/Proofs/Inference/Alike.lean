import LuaTypes.Proofs.Inference.Asks
import LuaTypes.Proofs.Ty.Congruence

/-!
# What rules respect

Answers that agree lead a rule to ask the same questions and to come to types that agree, unless it
reads a member. Answers that are one and the same do so always, and from proper ones come proper
types.

* `Inquiry.Alike`: two inquiries ask the same and come to related results; `Inquiry.Alike.run`: so
  do requests that answer them;
* `Codebase.typeOf_alike`: what the rules of inference respect;
* `Codebase.Closed.isProper_typeAlone`: types that are found alone are proper.
-/

namespace LuaTypes

/-- From related answers to the same questions, two inquiries come to related results. -/
inductive Inquiry.Alike {α β : Type} (rel : Ty → Ty → Prop) (out : α → β → Prop) :
    Inquiry α → Inquiry β → Prop
  | done {a : α} {b : β} (h : out a b) : Alike rel out (.done a) (.done b)
  | fail (foreign : ForeignKind) : Alike rel out (.fail foreign) (.fail foreign)
  | ask (e : Filed Expr) {next : Ty → Inquiry α} {next' : Ty → Inquiry β}
    (h : ∀ ty ty', rel ty ty' → Alike rel out (next ty) (next' ty')) :
    Alike rel out (.ask e next) (.ask e next')

/-- Two inquiries end the same way, with related results if they give any. -/
inductive Outcome.Alike {α β : Type} (out : α → β → Prop) : Outcome α → Outcome β → Prop
  | value {a : α} {b : β} (h : out a b) : Alike out (.value a) (.value b)
  | failed (foreign : ForeignKind) : Alike out (.failed foreign) (.failed foreign)
  | exhausted : Alike out .exhausted .exhausted

theorem Outcome.Alike.imp {α β : Type} {out weaker : α → β → Prop} {outcome : Outcome α}
    {outcome' : Outcome β} (h : outcome.Alike out outcome') (hout : ∀ a b, out a b → weaker a b) :
    outcome.Alike weaker outcome' := by
  cases h with
  | value h => exact .value (hout _ _ h)
  | failed foreign => exact .failed foreign
  | exhausted => exact .exhausted

namespace Inquiry.Alike

variable {α β γ δ : Type} {rel : Ty → Ty → Prop} {out : α → β → Prop} {out' : γ → δ → Prop}

theorem typeOf (e : Filed Expr) : Alike rel rel (.typeOf e) (.typeOf e) :=
  .ask e fun _ _ h => .done h

theorem bind {inquiry : Inquiry α} {inquiry' : Inquiry β} {f : α → Inquiry γ} {f' : β → Inquiry δ}
    (h : Alike rel out inquiry inquiry') (hf : ∀ a b, out a b → Alike rel out' (f a) (f' b)) :
    Alike rel out' (inquiry >>= f) (inquiry' >>= f') := by
  induction h with
  | done h => exact hf _ _ h
  | fail foreign => exact .fail foreign
  | ask e _ ih => exact .ask e ih

theorem imp {weaker : α → β → Prop} {inquiry : Inquiry α} {inquiry' : Inquiry β}
    (h : Alike rel out inquiry inquiry') (hout : ∀ a b, out a b → weaker a b) :
    Alike rel weaker inquiry inquiry' := by
  induction h with
  | done h => exact .done (hout _ _ h)
  | fail foreign => exact .fail foreign
  | ask e _ ih => exact .ask e ih

theorem trans {out₂ : β → γ → Prop} {out₃ : α → γ → Prop} {inquiry : Inquiry α}
    {inquiry' : Inquiry β} {inquiry'' : Inquiry γ} (h : Alike Ty.Identical out inquiry inquiry')
    (h' : Alike Ty.Identical out₂ inquiry' inquiry'')
    (hout : ∀ a b c, out a b → out₂ b c → out₃ a c) :
    Alike Ty.Identical out₃ inquiry inquiry'' := by
  induction h generalizing inquiry'' with
  | done h =>
    cases h' with
    | done h' => exact .done (hout _ _ _ h h')
  | fail foreign =>
    cases h' with
    | fail => exact .fail foreign
  | ask e _ ih =>
    cases h' with
    | ask _ h' =>
      refine .ask e fun ty ty' hty => ih ty ty' hty (h' ty' ty' ⟨rfl, ?_⟩)
      rw [← hty.eq]
      exact hty.proper

/-- Where each answer is related to itself, alike inquiries that begin in one state end alike and
leave one state. -/
theorem run {find : Finder} {Inv : State → Prop} (hfind : ∀ e state, Inv state →
      (∀ ty, (find e state).1 = .value ty → rel ty ty) ∧ Inv (find e state).2)
    {inquiry : Inquiry α} {inquiry' : Inquiry β} (h : Alike rel out inquiry inquiry')
    {state : State} (hstate : Inv state) :
    (inquiry.run find state).1.Alike out (inquiry'.run find state).1 ∧
      (inquiry.run find state).2 = (inquiry'.run find state).2 := by
  induction h generalizing state with
  | done h => exact ⟨.value h, rfl⟩
  | fail foreign => exact ⟨.failed foreign, rfl⟩
  | ask e _ ih =>
    obtain ⟨hself, hafter⟩ := hfind e state hstate
    simp only [Inquiry.run]
    rcases hanswer : find e state with ⟨outcome, after⟩
    rw [hanswer] at hself hafter
    cases outcome with
    | value ty => exact ih ty ty (hself ty rfl) hafter
    | failed foreign => exact ⟨.failed foreign, rfl⟩
    | exhausted => exact ⟨.exhausted, rfl⟩

/-- Both go on with what is read. -/
theorem reading {ε : Type} {read : Reading ε} {f : ε → Inquiry α} {f' : ε → Inquiry β}
    (hf : ∀ a, read = .ok a → Alike rel out (f a) (f' a)) :
    Alike rel out ((read : Inquiry ε) >>= f) ((read : Inquiry ε) >>= f') := by
  cases read with
  | ok a => exact hf a rfl
  | error foreign => exact .fail foreign

end Inquiry.Alike

/-! ### The rules -/

namespace Codebase

variable {codebase : Codebase} {rel : Ty → Ty → Prop}

section Rules

variable (hrel : Ty.Congruence rel)

include hrel

theorem typeOfPart_alike (whole : Filed Node) (part : Option Expr) :
    (typeOfPart whole part).Alike rel rel (typeOfPart whole part) := by
  cases part with
  | none => exact .done (hrel.refl rfl)
  | some part => exact .typeOf _

theorem typeOfUnary_alike (un : Filed Node) :
    (typeOfUnary un).Alike rel rel (typeOfUnary un) := by
  unfold typeOfUnary
  split
  · exact .done (hrel.refl rfl)
  · split
    · exact .reading fun part _ => typeOfPart_alike hrel un part
    · exact .done (hrel.refl rfl)
    · exact .done (hrel.refl rfl)

theorem typeOfBinary_alike (bin : Filed Node) :
    (typeOfBinary bin).Alike rel rel (typeOfBinary bin) := by
  unfold typeOfBinary
  split
  · exact .done (hrel.refl rfl)
  · next op _ =>
    split
    · exact .reading fun part _ => typeOfPart_alike hrel bin part
    · exact .reading fun part _ => typeOfPart_alike hrel bin part
    · refine .reading fun lhs _ => (typeOfPart_alike hrel bin lhs).bind fun a a' ha => ?_
      refine .reading fun rhs _ => (typeOfPart_alike hrel bin rhs).bind fun b b' hb => ?_
      exact .done (hrel.join ha hb)
    · refine .done (hrel.refl ?_)
      cases op.kind.binaryTyping <;> rfl

theorem typeOfIndex_alike
    (hmember : ∀ {a b}, rel a b → ∀ name, rel (memberType a name) (memberType b name))
    (index : Filed Node) : (typeOfIndex index).Alike rel rel (typeOfIndex index) := by
  refine .reading fun base _ => .reading fun name _ => ?_
  cases base with
  | none => exact .done (hrel.refl rfl)
  | some base =>
    cases name with
    | none => exact .done (hrel.refl rfl)
    | some name => exact (Inquiry.Alike.typeOf _).bind fun a b hab => .done (hmember hab name)

theorem typeOfReturn_alike (file : FileNumber) (ret : Node) :
    (typeOfReturn file ret).Alike rel rel (typeOfReturn file ret) := by
  refine .reading fun first _ => ?_
  cases first with
  | none => exact .done (hrel.refl rfl)
  | some e => exact .typeOf _

theorem typesOfReturns_alike (file : FileNumber) (rets : List Node) :
    (typesOfReturns file rets).Alike rel (List.Forall₂ rel) (typesOfReturns file rets) := by
  induction rets with
  | nil => exact .done .nil
  | cons ret rest ih =>
    exact (typeOfReturn_alike hrel file ret).bind fun _ _ hty => ih.bind fun _ _ htys =>
      .done (.cons hty htys)

theorem typeOfReturns_alike (body : Filed Node) :
    (typeOfReturns body).Alike rel rel (typeOfReturns body) :=
  .reading fun returns _ => (typesOfReturns_alike hrel body.file returns).bind fun _ _ htys =>
    .done (hrel.joinAll htys)

theorem typeOfBody_alike (hproper : codebase.Proper) {body : Filed Node}
    (hbody : codebase.HasNode body) :
    (typeOfBody codebase body).Alike rel rel (typeOfBody codebase body) := by
  refine .reading fun declared hdeclared => ?_
  cases declared with
  | some ty => exact .done (hrel.refl ((hproper.declaredType hbody).of_ok hdeclared ty rfl))
  | none =>
    refine .reading fun params _ => (typeOfReturns_alike hrel body).bind fun _ _ hret => ?_
    refine .done (hrel.ofSignature (properTypes_iff.2 fun ty hty => ?_) hret)
    rw [List.eq_of_mem_replicate hty]
    rfl

theorem typeOfClosure_alike (hclosed : codebase.Closed) (hproper : codebase.Proper)
    {closure : Filed Node} (hclosure : codebase.HasNode closure) :
    (typeOfClosure codebase closure).Alike rel rel (typeOfClosure codebase closure) := by
  refine .reading fun body hbody => ?_
  cases body with
  | none => exact .done (hrel.refl rfl)
  | some body =>
    have hnode : codebase.HasNode (closure.replace body) :=
      ((hclosed.enclosed closure.file).childOfKind hclosure .funcBody).ok _ hbody body rfl
    exact typeOfBody_alike hrel hproper hnode

theorem typeOfName_alike (hproper : codebase.Proper) {name : Filed Node}
    (hname : codebase.HasNode name) :
    (typeOfName codebase name).Alike rel rel (typeOfName codebase name) := by
  refine .reading fun binding hbinding => ?_
  have hfound := (hproper.bindingOf hname).of_ok hbinding
  cases binding with
  | none => exact .done (hrel.refl rfl)
  | some binding =>
    cases binding with
    | initializer e => exact .typeOf e
    | function body => exact typeOfBody_alike hrel hproper (hfound _ rfl)
    | annotated ty => exact .done (hrel.refl (hfound _ rfl))

theorem typeOfExport_alike (file : FileNumber) :
    (typeOfExport codebase file).Alike rel rel (typeOfExport codebase file) := by
  unfold typeOfExport
  split
  · exact .done (hrel.refl rfl)
  · refine .reading fun source _ => ?_
    cases source with
    | none => exact .done (hrel.refl rfl)
    | some source =>
      refine .reading fun first _ => ?_
      cases first with
      | none => exact .done (hrel.refl rfl)
      | some e => exact .typeOf _

theorem typeOfRequire_alike (reach : Reach) (call : Filed Node) :
    (typeOfRequire codebase reach call).Alike rel rel (typeOfRequire codebase reach call) := by
  cases reach with
  | ownFile => exact .done (hrel.refl rfl)
  | full =>
    refine .reading fun arg _ => ?_
    cases arg with
    | none => exact .done (hrel.refl rfl)
    | some raw =>
      refine .reading fun found _ => ?_
      cases found with
      | none => exact .done (hrel.refl rfl)
      | some found => exact typeOfExport_alike hrel found.file

omit hrel in
theorem typeOfOwner_alike (callee : Filed Expr) :
    (typeOfOwner codebase callee).Alike rel (Option.Rel rel) (typeOfOwner codebase callee) := by
  unfold typeOfOwner
  split
  · refine .reading fun name _ => ?_
    cases name with
    | none => exact .done .none
    | some name =>
      dsimp only
      split
      · refine .reading fun base _ => ?_
        cases base with
        | none => exact .done .none
        | some base => exact (Inquiry.Alike.typeOf _).bind fun _ _ h => .done (.some h)
      · exact .done .none
  · exact .done .none

theorem typeOfCallee_alike (call : Filed Node) {callee callee' : Ty} (h : rel callee callee') :
    (typeOfCallee codebase call callee).Alike rel rel (typeOfCallee codebase call callee') := by
  have hdirect := hrel.direct h
  unfold typeOfCallee
  rw [hrel.isUnknown hdirect]
  split
  · refine .reading fun body _ => ?_
    cases body with
    | none => exact .done hdirect
    | some body => exact typeOfReturns_alike hrel body
  · exact .done hdirect

theorem typeOfCall_alike (reach : Reach) (call : Filed Node) :
    (typeOfCall codebase reach call).Alike rel rel (typeOfCall codebase reach call) := by
  refine .reading fun callee _ => ?_
  cases callee with
  | none => exact .done (hrel.refl rfl)
  | some callee =>
    dsimp only
    split
    · exact typeOfRequire_alike hrel reach call
    · refine (Inquiry.Alike.typeOf _).bind fun a a' ha => ?_
      refine (typeOfCallee_alike hrel call ha).bind fun ty ty' hty => ?_
      refine (typeOfOwner_alike _).bind fun owner owner' howner => ?_
      cases howner with
      | none => exact .done hty
      | some howner => exact .done (hrel.withOwner hty howner)

/-- What unions, signatures and calls respect, every rule does; where a member is read, members have
to be respected, too. -/
theorem typeOf_alike (hclosed : codebase.Closed) (hproper : codebase.Proper) (reach : Reach)
    {e : Filed Expr} (he : codebase.HasExpr e)
    (hmember : e.value.form = .index →
      ∀ {a b}, rel a b → ∀ name, rel (memberType a name) (memberType b name)) :
    (typeOf codebase reach e).Alike rel rel (typeOf codebase reach e) := by
  unfold typeOf
  cases hform : e.value.form <;> dsimp only
  case literal => exact .done (hrel.refl (Ty.stable_isProper.literal _))
  case name => exact typeOfName_alike hrel hproper he
  case paren => exact .reading fun part _ => typeOfPart_alike hrel _ part
  case unary => exact typeOfUnary_alike hrel _
  case binary => exact typeOfBinary_alike hrel _
  case call => exact typeOfCall_alike hrel reach _
  case index => exact typeOfIndex_alike hrel (hmember hform) _
  case closure => exact typeOfClosure_alike hrel hclosed hproper he
  case table => exact .done (hrel.refl rfl)

end Rules

/-! ### Types that are found alone -/

variable {reach : Reach}

/-- Types that are found alone are proper. -/
theorem Closed.isProper_typeAlone (hclosed : codebase.Closed) (hproper : codebase.Proper)
    {e : Filed Expr} (he : codebase.HasExpr e) : (codebase.typeAlone reach e).isProper = true := by
  have hsound : (codebase.probe reach codebase.budget [] e none).Sound False (·.isProper = true)
      (· = none) :=
    (hclosed.enclosure hproper reach).probe_sound .none codebase.budget [] he rfl
  exact hsound.value _ (hclosed.probe_budget_alone reach he)

end Codebase

end LuaTypes
