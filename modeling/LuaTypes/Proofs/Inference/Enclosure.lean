import LuaTypes.Proofs.Inference.Probe
import LuaTypes.Proofs.Tree.Reading
import LuaTypes.Proofs.Ty.Congruence

/-!
# Inference in a part of a codebase

Some nodes of a codebase are closed under what a request may look up: those of one file if modules
are not followed, or all nodes of all files. Beginning with one of them, a request never leaves
them. If the types known beforehand have a property that the rules preserve, so have its answers and
whatever it keeps. And if the kinds of the nodes are known, no foreign kind is met; but nothing else
depends on this.

* `Ty.Stable`: a property of types that the rules preserve;
* `Codebase.Enclosure`: nodes closed under the look-ups of requests of a reach;
* `Inquiry.Keeps`: an inquiry asks only for some expressions, and its outcome has a property if the
  answers have theirs; `Codebase.Enclosure.typeOf`: the rules are such inquiries;
* `Codebase.Enclosure.probe_sound`: what inference finds, and what becomes of the memo.
-/

namespace LuaTypes

/-! ### Properties of types -/

/-- A property of types that the rules preserve. -/
structure Ty.Stable (Known : Ty → Prop) : Prop where
  unknown : Known .unknown
  nil : Known .nil
  boolean : Known .boolean
  number : Known .number
  string : Known .string
  join : ∀ {a b}, Known a → Known b → Known (a.join b)
  joinAll : ∀ {tys}, (∀ ty ∈ tys, Known ty) → Known (Ty.joinAll tys)
  ofSignature : ∀ {ret} (arity : Nat), Known ret →
    Known (Ty.ofSignature (List.replicate arity .unknown) ret)
  memberType : ∀ {base} (name : String), Known base → Known (memberType base name)
  direct : ∀ {callee}, Known callee → Known (Call.direct callee)

namespace Ty

theorem stable_true : Stable fun _ => True := by
  constructor <;> intros <;> trivial

theorem isProper_memberType {base : Ty} (h : base.isProper = true) (name : String) :
    (memberType base name).isProper = true :=
  (Identical.memberType ⟨rfl, h⟩ name).proper

theorem stable_isProper : Stable (·.isProper = true) where
  unknown := rfl
  nil := rfl
  boolean := rfl
  number := rfl
  string := rfl
  join := isProper_join
  joinAll := isProper_joinAll
  ofSignature arity hret := by
    refine isProper_ofSignature (properTypes_iff.2 fun ty hty => ?_) hret
    rw [List.eq_of_mem_replicate hty]
    rfl
  memberType name h := isProper_memberType h name
  direct := isProper_direct

namespace Stable

variable {Known : Ty → Prop}

theorem withOwner (h : Stable Known) {ty owner : Ty} (hty : Known ty) (howner : Known owner) :
    Known (Call.withOwner ty owner) := by
  unfold Call.withOwner
  split
  · exact howner
  · split
    · exact hty
    · exact h.join hty howner

theorem literal (h : Stable Known) (node : Node) : Known (Literal.ty node) := by
  unfold Literal.ty
  split
  · next sort _ =>
    cases sort with
    | nil => exact h.nil
    | boolean _ => exact h.boolean
    | number => exact h.number
    | string => exact h.string
  · exact h.unknown

theorem constant (h : Stable Known) (rule : BinaryTyping) :
    Known (rule.constant?.getD .unknown) := by
  cases rule with
  | concat => exact h.string
  | relational => exact h.boolean
  | _ => exact h.unknown

end Stable

end Ty

/-! ### Nodes that requests do not leave -/

/-- What a name refers to is one of some nodes, or a known type with a property. -/
def Binding.LiesIn (S : Filed Node → Prop) (Known : Ty → Prop) : Binding → Prop
  | .initializer e => S (e.replace e.value.node)
  | .function body => S body
  | .annotated ty => Known ty

/-- Nodes that are closed under the look-ups of requests of a reach, and a property of the types
that are known beforehand. Look-ups may fail if this is allowed. -/
structure Codebase.Enclosure (fails : Prop) (codebase : Codebase) (reach : Reach)
    (S : Filed Node → Prop) (Known : Ty → Prop) : Prop where
  stable : Ty.Stable Known
  nodes : ∀ file, Enclosed fails fun node => S ⟨file, node⟩
  root : reach = .full → ∀ file root, codebase.root? file = some root → S ⟨file, root⟩
  moduleFile : ∀ path origin, Reads fails (codebase.moduleFile path origin) fun _ => True
  bindingOf : ∀ {name}, S name →
    Reads fails (codebase.bindingOf name) (Every (Binding.LiesIn S Known))
  calledBody : ∀ {call}, S call → Reads fails (codebase.calledBody call) (Every S)
  declaredType : ∀ {body}, S body → Reads fails (codebase.declaredType body) (Every Known)

/-- No request leaves the nodes of all trees, those of a codebase and others. -/
theorem Codebase.enclosure_all {codebase : Codebase} {Known : Ty → Prop}
    (hstable : Ty.Stable Known)
    (hbinding : ∀ {name ty}, codebase.bindingOf name = .ok (some (.annotated ty)) → Known ty)
    (hdeclared : ∀ {body ty}, codebase.declaredType body = .ok (some ty) → Known ty)
    (reach : Reach) : Enclosure True codebase reach (fun _ => True) Known where
  stable := hstable
  nodes _ := ⟨fun _ => .inl trivial, fun _ _ => trivial, fun _ _ => trivial⟩
  root _ _ _ _ := trivial
  moduleFile _ _ := .of_ok fun _ _ => trivial
  bindingOf _ := .of_ok <| by
    rintro found hfound binding rfl
    cases binding with
    | initializer e => trivial
    | function body => trivial
    | annotated ty => exact hbinding hfound
  calledBody _ := .of_ok fun _ _ _ _ => trivial
  declaredType _ := .of_ok <| by
    rintro found hfound ty rfl
    exact hdeclared hfound

/-- Expressions whose nodes are among some nodes. -/
abbrev ExprIn (S : Filed Node → Prop) (e : Filed Expr) : Prop := S (e.replace e.value.node)

/-! ### Inquiries about some expressions -/

/-- An inquiry asks only for some expressions, and if the answers have a property, its outcome has
one. It meets a foreign kind only if failing is allowed. -/
inductive Inquiry.Keeps {α : Type} (fails : Prop) (Asked : Filed Expr → Prop) (Known : Ty → Prop)
    (Out : α → Prop) : Inquiry α → Prop
  | done {value : α} (h : Out value) : Keeps fails Asked Known Out (.done value)
  | fail (h : fails) (foreign : ForeignKind) : Keeps fails Asked Known Out (.fail foreign)
  | ask {e : Filed Expr} {next : Ty → Inquiry α} (he : Asked e)
    (hnext : ∀ ty, Known ty → Keeps fails Asked Known Out (next ty)) :
    Keeps fails Asked Known Out (.ask e next)

namespace Inquiry.Keeps

variable {α β : Type} {fails : Prop} {Asked : Filed Expr → Prop} {Known : Ty → Prop}
  {P : α → Prop} {Q : β → Prop}

theorem pure {value : α} (h : P value) : Keeps fails Asked Known P (Pure.pure value) := .done h

theorem typeOf {e : Filed Expr} (he : Asked e) : Keeps fails Asked Known Known (.typeOf e) :=
  .ask he fun _ hty => .done hty

theorem bind {inquiry : Inquiry α} {f : α → Inquiry β} (h : Keeps fails Asked Known P inquiry)
    (hf : ∀ a, P a → Keeps fails Asked Known Q (f a)) :
    Keeps fails Asked Known Q (inquiry >>= f) := by
  induction h with
  | done ha => exact hf _ ha
  | fail h foreign => exact .fail h foreign
  | ask he _ ih => exact .ask he ih

/-- What is read may be gone on with. -/
theorem reading {read : Reading α} {f : α → Inquiry β} (h : Reads fails read P)
    (hf : ∀ a, P a → Keeps fails Asked Known Q (f a)) :
    Keeps fails Asked Known Q ((read : Inquiry α) >>= f) := by
  cases read with
  | ok a => exact hf a (h.ok a rfl)
  | error foreign => exact .fail (h.error foreign rfl) foreign

/-- What may be read as missing. -/
theorem readingOption {read : Reading (Option α)} {f : Option α → Inquiry β}
    (h : Reads fails read (Every P)) (hnone : Keeps fails Asked Known Q (f none))
    (hsome : ∀ a, P a → Keeps fails Asked Known Q (f (some a))) :
    Keeps fails Asked Known Q ((read : Inquiry (Option α)) >>= f) :=
  reading h fun found hfound => by
    cases found with
    | none => exact hnone
    | some a => exact hsome a (hfound a rfl)

end Inquiry.Keeps

/-! ### The rules -/

namespace Codebase.Enclosure

variable {fails : Prop} {codebase : Codebase} {reach : Reach} {S : Filed Node → Prop}
  {Known : Ty → Prop}

/-- An inquiry for a type that asks for expressions among some nodes. -/
abbrev Keeps (fails : Prop) (S : Filed Node → Prop) (Known : Ty → Prop) (inquiry : Inquiry Ty) :
    Prop :=
  inquiry.Keeps fails (ExprIn S) Known Known

theorem typeOfPart (h : Enclosure fails codebase reach S Known) {whole : Filed Node}
    {part : Option Expr} (hpart : Every (Enclosed.IsExprOf fun node => S ⟨whole.file, node⟩) part) :
    Keeps fails S Known (typeOfPart whole part) := by
  cases part with
  | none => exact .pure h.stable.unknown
  | some part => exact .typeOf (hpart part rfl)

theorem typeOfUnary (h : Enclosure fails codebase reach S Known) {un : Filed Node} (hun : S un) :
    Keeps fails S Known (typeOfUnary un) := by
  unfold LuaTypes.typeOfUnary
  split
  · exact .pure h.stable.unknown
  · split
    · exact .reading ((h.nodes un.file).firstExpr hun) fun _ hpart => h.typeOfPart hpart
    · exact .pure h.stable.number
    · exact .pure h.stable.unknown

theorem typeOfBinary (h : Enclosure fails codebase reach S Known) {bin : Filed Node}
    (hbin : S bin) : Keeps fails S Known (typeOfBinary bin) := by
  have hread := h.nodes bin.file
  unfold LuaTypes.typeOfBinary
  split
  · exact .pure h.stable.unknown
  · split
    · exact .reading (hread.secondExpr hbin) fun _ hpart => h.typeOfPart hpart
    · exact .reading (hread.firstExpr hbin) fun _ hpart => h.typeOfPart hpart
    · refine .reading (hread.firstExpr hbin) fun _ hlhs => (h.typeOfPart hlhs).bind fun _ hl => ?_
      refine .reading (hread.secondExpr hbin) fun _ hrhs => (h.typeOfPart hrhs).bind fun _ hr => ?_
      exact .pure (h.stable.join hl hr)
    · exact .pure (h.stable.constant _)

theorem typeOfIndex (h : Enclosure fails codebase reach S Known) {index : Filed Node}
    (hindex : S index) : Keeps fails S Known (typeOfIndex index) := by
  have hread := h.nodes index.file
  refine .readingOption (hread.firstExpr hindex) ?_ fun base hbase => ?_
  · exact .reading (hread.memberName hindex) fun _ _ => .pure h.stable.unknown
  · refine .reading (hread.memberName hindex) fun name _ => ?_
    cases name with
    | none => exact .pure h.stable.unknown
    | some name => exact .ask hbase fun _ hty => .pure (h.stable.memberType name hty)

theorem typeOfReturn (h : Enclosure fails codebase reach S Known) {file : FileNumber} {ret : Node}
    (hret : S ⟨file, ret⟩) : Keeps fails S Known (typeOfReturn file ret) :=
  .readingOption ((h.nodes file).firstOfReturn hret) (.pure h.stable.nil) fun _ he => .typeOf he

theorem typesOfReturns (h : Enclosure fails codebase reach S Known) {file : FileNumber}
    {rets : List Node} (hrets : EveryIn (fun ret => S ⟨file, ret⟩) rets) :
    (typesOfReturns file rets).Keeps fails (ExprIn S) Known (EveryIn Known) := by
  induction rets with
  | nil => exact .pure everyIn_nil
  | cons ret rest ih =>
    obtain ⟨hret, hrest⟩ := List.forall_mem_cons.1 hrets
    refine (h.typeOfReturn hret).bind fun ty hty => (ih hrest).bind fun tys htys => ?_
    exact .pure (List.forall_mem_cons.2 ⟨hty, htys⟩)

theorem typeOfReturns (h : Enclosure fails codebase reach S Known) {body : Filed Node}
    (hbody : S body) : Keeps fails S Known (typeOfReturns body) :=
  .reading ((h.nodes body.file).returns hbody) fun _ hrets =>
    (h.typesOfReturns hrets).bind fun _ htys => .pure (h.stable.joinAll htys)

theorem typeOfBody (h : Enclosure fails codebase reach S Known) {body : Filed Node}
    (hbody : S body) : Keeps fails S Known (typeOfBody codebase body) := by
  refine .readingOption (h.declaredType hbody) ?_ fun _ hty => .pure hty
  refine .reading ((h.nodes body.file).params hbody) fun params _ => ?_
  refine (h.typeOfReturns hbody).bind fun _ hret => ?_
  exact .pure (h.stable.ofSignature params.length hret)

theorem typeOfClosure (h : Enclosure fails codebase reach S Known) {closure : Filed Node}
    (hclosure : S closure) : Keeps fails S Known (typeOfClosure codebase closure) :=
  .readingOption ((h.nodes closure.file).childOfKind hclosure .funcBody) (.pure h.stable.unknown)
    fun _ hbody => h.typeOfBody hbody

theorem typeOfName (h : Enclosure fails codebase reach S Known) {name : Filed Node}
    (hname : S name) : Keeps fails S Known (typeOfName codebase name) := by
  refine .readingOption (h.bindingOf hname) (.pure h.stable.unknown) fun binding hbinding => ?_
  cases binding with
  | initializer e => exact .typeOf hbinding
  | function body => exact h.typeOfBody hbinding
  | annotated ty => exact .pure hbinding

/-- The type of what a file returns begins with the root of the file. -/
theorem typeOfExport (h : Enclosure fails codebase reach S Known) {file : FileNumber}
    (hfile : ∀ root, codebase.root? file = some root → S ⟨file, root⟩) :
    Keeps fails S Known (typeOfExport codebase file) := by
  unfold LuaTypes.typeOfExport
  split
  · exact .pure h.stable.unknown
  · next root hroot =>
    have hread := h.nodes file
    refine .readingOption (hread.ofKind? (hfile root hroot) .sourceFile) (.pure h.stable.unknown)
      fun root hroot => ?_
    exact .readingOption (hread.firstReturned hroot) (.pure h.stable.unknown) fun _ he =>
      .typeOf he

theorem findModule (h : Enclosure fails codebase reach S Known) (raw : String)
    (origin : FileNumber) : Reads fails (findModule codebase raw origin) fun _ => True := by
  unfold LuaTypes.findModule
  split
  · exact .pure trivial
  · refine .mono (.firstHit (Q := fun _ => True) fun pattern _ => ?_) fun _ _ => trivial
    exact (h.moduleFile _ origin).map fun _ _ _ _ => trivial

theorem typeOfRequire (h : Enclosure fails codebase reach S Known) {call : Filed Node}
    (hcall : S call) : Keeps fails S Known (typeOfRequire codebase reach call) := by
  cases reach with
  | ownFile => exact .pure h.stable.unknown
  | full =>
    refine .reading ((h.nodes call.file).stringArg hcall) fun arg _ => ?_
    cases arg with
    | none => exact .pure h.stable.unknown
    | some raw =>
      refine .reading (h.findModule raw call.file) fun found _ => ?_
      cases found with
      | none => exact .pure h.stable.unknown
      | some found => exact h.typeOfExport (h.root rfl found.file)

theorem typeOfOwner (h : Enclosure fails codebase reach S Known) {callee : Filed Expr}
    (hcallee : ExprIn S callee) :
    (typeOfOwner codebase callee).Keeps fails (ExprIn S) Known (Every Known) := by
  have hread := h.nodes callee.file
  unfold LuaTypes.typeOfOwner
  split
  · refine .reading (hread.memberName hcallee) fun name _ => ?_
    cases name with
    | none => exact .pure every_none
    | some name =>
      dsimp only
      split
      · exact .readingOption (hread.firstExpr hcallee) (.pure every_none)
          fun _ hbase => (Inquiry.Keeps.typeOf hbase).bind fun _ hty => .pure (every_some hty)
      · exact .pure every_none
  · exact .pure every_none

theorem typeOfCallee (h : Enclosure fails codebase reach S Known) {call : Filed Node}
    (hcall : S call) {callee : Ty} (hcallee : Known callee) :
    Keeps fails S Known (typeOfCallee codebase call callee) := by
  have hdirect := h.stable.direct hcallee
  unfold LuaTypes.typeOfCallee
  split
  · exact .readingOption (h.calledBody hcall) (.pure hdirect) fun _ hbody => h.typeOfReturns hbody
  · exact .pure hdirect

theorem typeOfCall (h : Enclosure fails codebase reach S Known) {call : Filed Node}
    (hcall : S call) : Keeps fails S Known (typeOfCall codebase reach call) := by
  refine .readingOption ((h.nodes call.file).firstExpr hcall) (.pure h.stable.unknown)
    fun callee hcallee => ?_
  dsimp only
  split
  · exact h.typeOfRequire hcall
  · refine .ask hcallee fun ty hty => (h.typeOfCallee hcall hty).bind fun result hresult => ?_
    have hcallee' : ExprIn S (call.replace callee) := hcallee
    refine (h.typeOfOwner hcallee').bind fun owner howner => ?_
    cases owner with
    | none => exact .pure hresult
    | some owner => exact .pure (h.stable.withOwner hresult (howner owner rfl))

/-- Every rule asks only for expressions among the nodes, and preserves the property. -/
theorem typeOf (h : Enclosure fails codebase reach S Known) {e : Filed Expr} (he : ExprIn S e) :
    Keeps fails S Known (typeOf codebase reach e) := by
  unfold LuaTypes.typeOf
  dsimp only
  split
  · exact .pure (h.stable.literal _)
  · exact h.typeOfName he
  · exact .reading ((h.nodes e.file).firstExpr he) fun _ hpart => h.typeOfPart hpart
  · exact h.typeOfUnary he
  · exact h.typeOfBinary he
  · exact h.typeOfCall he
  · exact h.typeOfIndex he
  · exact h.typeOfClosure he
  · exact .pure h.stable.unknown

end Codebase.Enclosure

/-! ### What inference finds -/

/-- A value that is found has a property, and so has the memo afterwards. A foreign kind is met only
if failing is allowed. -/
structure Finding.Sound {α : Type} (fails : Prop) (Out : α → Prop) (Inv : Option Memo → Prop)
    (found : Finding α) : Prop where
  value : ∀ value, found.outcome = .value value → Out value
  failed : ∀ foreign, found.outcome = .failed foreign → fails
  memo : Inv found.memo

/-- Where answers are sound, so is the outcome of an inquiry. -/
theorem Inquiry.Keeps.probe_sound {α : Type} {fails : Prop} {Asked : Filed Expr → Prop}
    {Known : Ty → Prop} {Out : α → Prop} {Inv : Option Memo → Prop} {look : Looker}
    (hlook : ∀ e memo, Asked e → Inv memo → (look e memo).Sound fails Known Inv)
    {inquiry : Inquiry α} (h : inquiry.Keeps fails Asked Known Out) {memo : Option Memo}
    (hmemo : Inv memo) : (inquiry.probe look memo).Sound fails Out Inv := by
  induction h generalizing memo with
  | done hvalue =>
    refine ⟨fun value h => ?_, by simp [Inquiry.probe], hmemo⟩
    cases h
    exact hvalue
  | fail hfails foreign => exact ⟨by simp [Inquiry.probe], fun _ _ => hfails, hmemo⟩
  | @ask e next he _ ih =>
    obtain ⟨hvalue, hfailed, hinv⟩ := hlook e memo he hmemo
    simp only [Inquiry.probe]
    cases hout : (look e memo).outcome with
    | value ty =>
      obtain ⟨hvalue', hfailed', hinv'⟩ := ih ty (hvalue ty hout) hinv
      exact ⟨hvalue', hfailed', hinv'⟩
    | failed foreign => exact ⟨by simp, fun _ _ => hfailed foreign hout, hinv⟩
    | exhausted => exact ⟨by simp, by simp, hinv⟩

/-- What is asked of a memo in the course of requests of a reach: what it holds of expressions among
some nodes has a property, and this stays so when an answer with the property is kept. -/
structure Memo.Upheld (reach : Reach) (S : Filed Node → Prop) (Known : Ty → Prop)
    (Inv : Option Memo → Prop) : Prop where
  known : ∀ {memo e ty}, Inv memo → ExprIn S e →
    memo.bind (·.get? ⟨Expr.key e, reach⟩) = some ty → Known ty
  keep : ∀ {memo e ty}, Inv memo → ExprIn S e → Known ty →
    Inv (memo.map (·.insert ⟨Expr.key e, reach⟩ ty))

namespace Memo.Upheld

variable {reach : Reach} {S : Filed Node → Prop} {Known : Ty → Prop}

theorem trivial : Upheld reach S (fun _ => True) fun _ => True :=
  ⟨fun _ _ _ => True.intro, fun _ _ _ => True.intro⟩

/-- Where no memo is used, none is used later on. -/
theorem none : Upheld reach S Known (· = none) := by
  constructor
  · rintro _ _ _ rfl - hget
    cases hget
  · rintro _ _ _ rfl - -
    rfl

end Memo.Upheld

namespace Codebase.Enclosure

variable {fails : Prop} {codebase : Codebase} {reach : Reach} {S : Filed Node → Prop}
  {Known : Ty → Prop} {Inv : Option Memo → Prop}

theorem probe_sound_of_inside (h : Enclosure fails codebase reach S Known)
    (hInv : Memo.Upheld reach S Known Inv) {budget : Nat} {path : List Key} {e : Filed Expr}
    {memo : Option Memo} (he : ExprIn S e) (hmemo : Inv memo)
    (hinside : (codebase.inside reach budget path e memo).Sound fails Known Inv) :
    (codebase.probe reach budget path e memo).Sound fails Known Inv := by
  rcases codebase.probe_cases reach budget path e memo with
    ⟨ty, hknown, hprobe⟩ | ⟨depth, -, -, hprobe⟩ | ⟨-, -, hprobe⟩ <;> rw [hprobe]
  · refine ⟨fun ty' h' => ?_, by simp, hmemo⟩
    cases h'
    exact hInv.known hmemo he hknown
  · refine ⟨fun ty' h' => ?_, by simp, hmemo⟩
    cases h'
    exact h.stable.unknown
  · obtain ⟨hvalue, hfailed, hinv⟩ := hinside
    refine ⟨hvalue, hfailed, Finding.leave_memo_kept Inv hinv fun ty hout _ => ?_⟩
    exact hInv.keep hinv he (hvalue ty hout)

theorem inside_sound (h : Enclosure fails codebase reach S Known)
    (hInv : Memo.Upheld reach S Known Inv) (budget : Nat) (path : List Key) {e : Filed Expr}
    {memo : Option Memo} (he : ExprIn S e) (hmemo : Inv memo) :
    (codebase.inside reach budget path e memo).Sound fails Known Inv := by
  induction budget generalizing path e memo with
  | zero => exact ⟨by simp [inside_zero], by simp [inside_zero], hmemo⟩
  | succ budget ih =>
    rw [inside_succ]
    refine (h.typeOf he).probe_sound ?_ hmemo
    intro e' memo' he' hmemo'
    exact h.probe_sound_of_inside hInv he' hmemo' (ih (Expr.key e :: path) he' hmemo')

/-- Answers have the property, and the memo is upheld. -/
theorem probe_sound (h : Enclosure fails codebase reach S Known)
    (hInv : Memo.Upheld reach S Known Inv) (budget : Nat) (path : List Key) {e : Filed Expr}
    {memo : Option Memo} (he : ExprIn S e) (hmemo : Inv memo) :
    (codebase.probe reach budget path e memo).Sound fails Known Inv :=
  h.probe_sound_of_inside hInv he hmemo (h.inside_sound hInv budget path he hmemo)

/-- A request on a trail keeps what is asked of the memo. -/
theorem run_sound (h : Enclosure fails codebase reach S Known)
    (hInv : Memo.Upheld reach S Known Inv) {α : Type} {Out : α → Prop} {inquiry : Inquiry α}
    (hinquiry : inquiry.Keeps fails (ExprIn S) Known Out) (budget : Nat) {trail : Trail}
    (htrail : trail.Consistent) (hreach : trail.reach = reach) {memo : Option Memo}
    (hmemo : Inv memo) :
    (∀ value, (inquiry.run (codebase.inferWithin budget) ⟨trail, memo⟩).1 = .value value →
      Out value) ∧ Inv (inquiry.run (codebase.inferWithin budget) ⟨trail, memo⟩).2.memo := by
  rw [codebase.run_inferWithin_eq budget htrail, hreach]
  have hlook : ∀ e memo, ExprIn S e → Inv memo →
      (codebase.probe reach budget trail.keys e memo).Sound fails Known Inv := by
    intro e memo he hmemo
    exact h.probe_sound hInv budget trail.keys he hmemo
  obtain ⟨hvalue, -, hinv⟩ := hinquiry.probe_sound hlook hmemo
  exact ⟨hvalue, hinv⟩

end Codebase.Enclosure

end LuaTypes
