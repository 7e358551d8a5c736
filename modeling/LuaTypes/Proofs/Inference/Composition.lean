import LuaTypes.Proofs.Inference.Unguarded

/-!
# Types in terms of the types of parts

Where inference meets no refusal, the trail does not show: an expression has the type that the rule
of its form makes of the types which its parts have alone, each found by a request of its own. That
holds although inference finds them one after the other below the expression, some of them twice.

* `Composition.expr`: the type of an expression in terms of the types that others have, with what a
  callee and the owner of a constructor contribute written out;
* `Inquiry.answered`: what an inquiry comes to if each question has one answer;
  `Composition.direct_eq`, `Composition.withOwner_eq`, `Composition.answered_typeOf`: the rules of
  inference are those of composition;
* `Codebase.Closed.expr_of_settled`: settled expressions are composed of the types of their parts;
* `Project.composes`: inference without a refusal is compositional.
-/

namespace LuaTypes

/-! ### Rules of composition -/

namespace Composition

variable (codebase : Codebase) (reach : Reach) (alone : Filed Expr → Ty)

/-- A part has the type that it has alone; a part that is missing is unknown. -/
def part (whole : Filed Node) (found : Option Expr) : Ty :=
  found.elim .unknown fun e => alone (whole.replace e)

/-- Minus keeps the type of its operand, a length is a number. -/
def unary (un : Filed Node) : Reading Ty :=
  match (Unary.op? un.value).map Token.kind with
  | some .minus => do return part alone un (← Unary.operand un.value)
  | some .hash => return .number
  | _ => return .unknown

/-- Alternatives are united, a conjunction has the type of its right operand, arithmetic and
operations on bits that of the left one; concatenation gives a string, comparison a truth value. -/
def binary (bin : Filed Node) : Reading Ty :=
  match (Binary.op? bin.value).map Token.kind with
  | some .orKw => do
    return (part alone bin (← Binary.lhs bin.value)).join (part alone bin (← Binary.rhs bin.value))
  | some .andKw => do return part alone bin (← Binary.rhs bin.value)
  | some .plus | some .minus | some .star | some .slash | some .doubleSlash | some .percent
  | some .caret | some .amp | some .pipe | some .tilde | some .shl | some .shr => do
    return part alone bin (← Binary.lhs bin.value)
  | some .concat => return .string
  | some .eqEq | some .notEq | some .lt | some .ltEq | some .gt | some .gtEq => return .boolean
  | _ => return .unknown

/-- A call of a function yields the union over the function's own returns: the type of the first
expression of each, nil where there is none. -/
def returns (body : Filed Node) : Reading Ty := do
  let firsts ← (← Body.returns body.value).mapM ReturnStmt.first
  return Ty.joinAll (firsts.map fun first => first.elim .nil fun e => alone ⟨body.file, e⟩)

/-- A function has its declared type, or else one unknown type for each parameter and what a call
of it yields. -/
def function (body : Filed Node) : Reading Ty := do
  match ← codebase.declaredType body with
  | some ty => return ty
  | none =>
    let params ← Body.params body.value
    return Ty.ofSignature (List.replicate params.length .unknown) (← returns alone body)

/-- A name has the type of its initializer or of its function, or the type that is known of it. -/
def name (name : Filed Node) : Reading Ty := do
  match ← codebase.bindingOf name with
  | some (.initializer e) => return alone e
  | some (.function body) => function codebase alone body
  | some (.annotated ty) => return ty
  | none => return .unknown

/-- A function without a name has the type of its body. -/
def closure (closure : Filed Node) : Reading Ty := do
  match ← Closure.body closure.value with
  | some body => function codebase alone (closure.replace body)
  | none => return .unknown

/-- A member has the types that the classes among the types of the object declare for it. -/
def index (index : Filed Node) : Reading Ty := do
  match ← Index.base index.value, ← Index.memberName index.value with
  | some base, some name => return memberType (alone (index.replace base)) name
  | _, _ => return .unknown

/-- A module has the type of the first expression that its file returns. -/
def exported (file : FileNumber) : Reading Ty :=
  match codebase.root? file with
  | none => return .unknown
  | some root => do
    match ← root.ofKind? .sourceFile with
    | none => return .unknown
    | some root => return part alone ⟨file, root⟩ (← SourceFile.firstReturned root)

/-- A call that loads a module has the type of the module, if modules are followed and this one is
found. -/
def required (call : Filed Node) : Reading Ty :=
  match reach with
  | .ownFile => return .unknown
  | .full => do
    match ← Call.stringArg call.value with
    | none => return .unknown
    | some raw =>
      match ← findModule codebase raw call.file with
      | none => return .unknown
      | some found => exported codebase alone found.file

/-- The object whose constructor is called, if the name of a constructor is. -/
def owner (callee : Filed Expr) : Reading (Option (Filed Expr)) :=
  match callee.value.form with
  | .index => do
    match ← Index.memberName callee.value.node with
    | none => return none
    | some name =>
      if codebase.conventions.isConstructor name then
        return (← Index.base callee.value.node).map callee.replace
      else return none
  | _ => return none

/-- An alternative of a callee's type contributes the returns of its signatures that are not unknown
altogether, and a class itself. -/
def contribution : Ty → List Ty
  | .function signatures => signatures.filterMap fun
    | .mk _ .unknown => none
    | .mk _ ret => some ret
  | .object name members => [.object name members]
  | _ => []

/-- A callee contributes what the alternatives of its type do; where they contribute nothing, the
function that is found by its name contributes what a call of it yields. -/
def callee (call : Filed Node) (e : Expr) : Reading Ty := do
  match Ty.joinAll ((alone (call.replace e)).alternatives.flatMap contribution) with
  | .unknown =>
    match ← codebase.calledBody call with
    | some body => returns alone body
    | none => return .unknown
  | ty => return ty

/-- What the callee contributes is united with the type of the object whose constructor is called,
unless one of the two is unknown altogether. -/
def constructed : Ty → Ty → Ty
  | .unknown, object => object
  | ty, .unknown => ty
  | ty, object => ty.join object

/-- A call combines what the callee contributes with the type of the object whose constructor is
called. -/
def call (call : Filed Node) : Reading Ty := do
  match ← Call.callee call.value with
  | none => return .unknown
  | some e =>
    if codebase.conventions.isLoader (Text.trimmed e.text) then required codebase reach alone call
    else
      let ty ← callee codebase alone call e
      match ← owner codebase (call.replace e) with
      | some base => return constructed ty (alone base)
      | none => return ty

/-- The type of an expression in terms of the types that others have alone. -/
def expr (e : Filed Expr) : Reading Ty :=
  let node := e.replace e.value.node
  match e.value.form with
  | .literal => return Literal.ty node.value
  | .name => name codebase alone node
  | .paren => do return part alone node (← Paren.inner node.value)
  | .unary => unary alone node
  | .binary => binary alone node
  | .call => call codebase reach alone node
  | .index => index alone node
  | .closure => closure codebase alone node
  | .table => return .unknown

end Composition

/-! ### Inquiries whose questions have one answer -/

/-- What an inquiry comes to if each question has one answer. -/
def Inquiry.answered {α : Type} (answer : Filed Expr → Ty) : Inquiry α → Reading α
  | .done value => .ok value
  | .fail foreign => .error foreign
  | .ask e next => (next (answer e)).answered answer

namespace Inquiry

variable {α β : Type} {answer : Filed Expr → Ty}

@[simp] theorem answered_done (value : α) :
    (done value).answered answer = pure value := rfl

@[simp] theorem answered_typeOf (e : Filed Expr) :
    (typeOf e).answered answer = pure (answer e) := rfl

@[simp] theorem answered_reading (read : Reading α) :
    (read : Inquiry α).answered answer = read := by
  cases read <;> rfl

@[simp] theorem answered_bind (inquiry : Inquiry α) (f : α → Inquiry β) :
    (inquiry >>= f).answered answer =
      inquiry.answered answer >>= fun a => (f a).answered answer := by
  induction inquiry with
  | done value => rfl
  | fail foreign => rfl
  | ask e next ih => exact ih (answer e)

/-- What reading gives is no question. -/
theorem answered_read {read : Reading α} {next : α → Inquiry β} {result : α → Reading β}
    (h : ∀ a, (next a).answered answer = result a) :
    ((read : Inquiry α) >>= next).answered answer = read >>= result := by
  simp [h]

/-- An inquiry that comes to an end with some answers comes to the same with all of them. -/
theorem Within.answered_of_eval {P : Filed Expr → Prop} {inquiry : Inquiry α}
    (h : inquiry.Within P) {found : Filed Expr → Option Ty}
    (hfound : ∀ e ty, P e → found e = some ty → answer e = ty) {value : α}
    (heval : inquiry.eval found = some value) : inquiry.answered answer = .ok value := by
  induction h with
  | done value' =>
    cases heval
    rfl
  | @ask e next he _ ih =>
    obtain ⟨ty, hty, heval⟩ := Option.bind_eq_some_iff.1 heval
    rw [← hfound e ty he hty] at heval
    exact ih (answer e) heval

end Inquiry

namespace Composition

variable (codebase : Codebase) (reach : Reach) (alone : Filed Expr → Ty)

theorem answered_part (whole : Filed Node) (found : Option Expr) :
    (typeOfPart whole found).answered alone = pure (part alone whole found) := by
  cases found <;> rfl

theorem answered_read_part (whole : Filed Node) (found : Reading (Option Expr)) :
    (do typeOfPart whole (← found) : Inquiry Ty).answered alone =
      return part alone whole (← found) :=
  Inquiry.answered_read fun e => answered_part alone whole e

theorem answered_unary (un : Filed Node) :
    (typeOfUnary un).answered alone = unary alone un := by
  unfold typeOfUnary unary
  cases Unary.op? un.value with
  | none => rfl
  | some op =>
    obtain ⟨kind, text⟩ := op
    cases kind <;> first | rfl | exact answered_read_part alone un _

theorem answered_binary (bin : Filed Node) :
    (typeOfBinary bin).answered alone = binary alone bin := by
  unfold typeOfBinary binary
  cases Binary.op? bin.value with
  | none => rfl
  | some op =>
    obtain ⟨kind, text⟩ := op
    cases kind
    case orKw =>
      refine Inquiry.answered_read fun lhs => ?_
      rw [Inquiry.answered_bind, answered_part, pure_bind]
      refine Inquiry.answered_read fun rhs => ?_
      rw [Inquiry.answered_bind, answered_part, pure_bind]
      rfl
    all_goals first | rfl | exact answered_read_part alone bin _

theorem answered_typesOfReturns (file : FileNumber) (returns : List Node) :
    (typesOfReturns file returns).answered alone = do
      let firsts ← returns.mapM ReturnStmt.first
      return firsts.map fun first => first.elim .nil fun e => alone ⟨file, e⟩ := by
  induction returns with
  | nil => rfl
  | cons ret rest ih =>
    simp only [typesOfReturns, typeOfReturn, Inquiry.answered_bind, ih, List.mapM_cons]
    cases ReturnStmt.first ret with
    | error foreign => rfl
    | ok first => cases rest.mapM ReturnStmt.first <;> cases first <;> rfl

theorem answered_returns (body : Filed Node) :
    (typeOfReturns body).answered alone = returns alone body := by
  simp [typeOfReturns, returns, answered_typesOfReturns]

theorem answered_function (body : Filed Node) :
    (typeOfBody codebase body).answered alone = function codebase alone body := by
  refine Inquiry.answered_read fun declared => ?_
  cases declared <;> simp [answered_returns]

theorem answered_name (node : Filed Node) :
    (typeOfName codebase node).answered alone = name codebase alone node := by
  refine Inquiry.answered_read fun binding => ?_
  rcases binding with _ | e | body | ty <;> simp [answered_function]

theorem answered_closure (node : Filed Node) :
    (typeOfClosure codebase node).answered alone = closure codebase alone node := by
  refine Inquiry.answered_read fun body => ?_
  cases body <;> simp [answered_function]

theorem answered_index (node : Filed Node) :
    (typeOfIndex node).answered alone = index alone node := by
  refine Inquiry.answered_read fun base => Inquiry.answered_read fun name => ?_
  cases base <;> cases name <;> simp

theorem answered_exported (file : FileNumber) :
    (typeOfExport codebase file).answered alone = exported codebase alone file := by
  unfold typeOfExport exported
  cases codebase.root? file with
  | none => rfl
  | some root =>
    refine Inquiry.answered_read fun source => ?_
    cases source with
    | none => rfl
    | some source =>
      refine Inquiry.answered_read fun first => ?_
      cases first <;> rfl

theorem answered_required (node : Filed Node) :
    (typeOfRequire codebase reach node).answered alone = required codebase reach alone node := by
  cases reach with
  | ownFile => rfl
  | full =>
    refine Inquiry.answered_read fun raw => ?_
    cases raw with
    | none => rfl
    | some raw =>
      refine Inquiry.answered_read fun found => ?_
      cases found with
      | none => rfl
      | some found => exact answered_exported codebase alone found.file

theorem answered_owner (e : Filed Expr) :
    (typeOfOwner codebase e).answered alone = return (← owner codebase e).map alone := by
  unfold typeOfOwner owner
  cases e.value.form <;> try rfl
  simp only [bind_assoc]
  refine Inquiry.answered_read fun name => ?_
  cases name with
  | none => rfl
  | some name =>
    dsimp only
    split
    · simp only [bind_assoc]
      refine Inquiry.answered_read fun base => ?_
      cases base <;> rfl
    · rfl

theorem contribution_eq (ty : Ty) :
    contribution ty = (Call.contribution ty).filter (!·.isUnknown) := by
  cases ty with
  | function signatures =>
    simp only [contribution, Call.contribution, List.filter_map]
    rw [← List.filterMap_eq_map, List.filterMap_filter]
    congr 1
    funext signature
    obtain ⟨params, ret⟩ := signature
    cases ret <;> rfl
  | _ => rfl

/-- The callee's type gives what its alternatives contribute. -/
theorem direct_eq (callee : Ty) :
    Call.direct callee = Ty.joinAll (callee.alternatives.flatMap contribution) := by
  rw [Call.direct, Call.contributions, List.filter_flatMap, funext contribution_eq]

/-- The owner's type is combined as that of the object is. -/
theorem withOwner_eq (ty owner : Ty) : Call.withOwner ty owner = constructed ty owner := by
  cases ty <;> cases owner <;> rfl

theorem answered_callee (node : Filed Node) (e : Expr) :
    (typeOfCallee codebase node (alone (node.replace e))).answered alone =
      callee codebase alone node e := by
  rw [typeOfCallee, callee, ← direct_eq]
  cases hdirect : Call.direct (alone (node.replace e)) with
  | unknown =>
    refine Inquiry.answered_read fun body => ?_
    cases body <;> simp [answered_returns]
  | _ => rfl

theorem answered_call (node : Filed Node) :
    (typeOfCall codebase reach node).answered alone = call codebase reach alone node := by
  refine Inquiry.answered_read fun e => ?_
  cases e with
  | none => rfl
  | some e =>
    dsimp only
    split
    · exact answered_required codebase reach alone node
    · simp only [Inquiry.answered_bind, Inquiry.answered_typeOf, answered_callee, answered_owner,
        pure_bind, bind_assoc]
      congr 1
      funext ty
      congr 1
      funext base
      cases base with
      | none => rfl
      | some base => exact congrArg Except.ok (withOwner_eq ty (alone base))

/-- The rules of inference are those of composition. -/
theorem answered_typeOf (e : Filed Expr) :
    (typeOf codebase reach e).answered alone = expr codebase reach alone e := by
  unfold typeOf expr
  cases e.value.form with
  | literal => rfl
  | name => exact answered_name codebase alone _
  | paren => exact answered_read_part alone _ _
  | unary => exact answered_unary alone _
  | binary => exact answered_binary alone _
  | call => exact answered_call codebase reach alone _
  | index => exact answered_index alone _
  | closure => exact answered_closure codebase alone _
  | table => rfl

end Composition

/-! ### Inference without a refusal -/

namespace Codebase

variable {codebase : Codebase} {reach : Reach}

theorem isFaithful_none : Memo.IsFaithful codebase none := nofun

theorem Closed.typeAlone_of_settled (hclosed : codebase.Closed) {e : Filed Expr}
    (he : codebase.HasExpr e) {ty : Ty} (hsettled : codebase.Settled reach e ty) :
    codebase.typeAlone reach e = ty := by
  have hvalue := inferFresh_of_settled hclosed he hsettled isFaithful_none
  rw [hclosed.inferFresh_alone reach he] at hvalue
  exact Outcome.value.inj hvalue

/-- A settled expression has the type that its rule makes of the types of its parts: what plain
recursion finds of them on the way is what they have alone. -/
theorem Closed.expr_of_settled (hclosed : codebase.Closed) {e : Filed Expr}
    (he : codebase.HasExpr e) {ty : Ty} (hsettled : codebase.Settled reach e ty) :
    Composition.expr codebase reach (codebase.typeAlone reach) e = .ok ty := by
  obtain ⟨steps, -, hlast⟩ := hsettled.exists_last
  rw [← Composition.answered_typeOf]
  refine (hclosed.typeOf reach he).answered_of_eval ?_ hlast
  intro part ty' hpart hfound
  exact hclosed.typeAlone_of_settled hpart ⟨steps, hfound⟩

end Codebase

/-- Without a memo, each expression has a type alone; that of an expression whose inference meets no
refusal is what the rule of its form makes of the types that its parts have alone. -/
theorem Project.composes (project : Project) (hmade : ∀ tree ∈ project.files, Made tree)
    (reach : Reach) (e : Filed Expr) (he : project.codebase.HasExpr e)
    (hcalls : ∀ call ∈ project.codebase.calls e (.fresh reach none), call.isRefused = false) :
    (∀ part, project.codebase.HasExpr part →
      (project.codebase.inferFresh reach none part).1 =
        .value (project.codebase.typeAlone reach part)) ∧
      Composition.expr project.codebase reach (project.codebase.typeAlone reach) e =
        .ok (project.codebase.typeAlone reach e) := by
  have hclosed := Project.closed hmade
  have hvalue := hclosed.inferFresh_alone reach he
  have hsettled : project.codebase.Settled reach e (project.codebase.typeAlone reach e) :=
    ⟨_, Codebase.unguarded_of_calls (Trail.consistent_fresh reach) hcalls hvalue⟩
  constructor
  · intro part hpart
    exact hclosed.inferFresh_alone reach hpart
  · exact hclosed.expr_of_settled he hsettled

namespace Project

open Build

/-- The file returns the values of calls: of a function with a declared type, of one without, of one
that is only found by its name, of a constructor, and of the function that loads a module. -/
def callers : Project :=
  ((((empty .standard).withFile (sourceFile [
    localFunction "f" ["a"] [returnStmt [name "a"]],
    localFunction "g" ["a"] [returnStmt [orElse (name "a") (number "1")]],
    functionStmt (field (name "T") "run") [] [returnStmt [nil]],
    returnStmt [call (name "f") [number "1"], call (name "g") [number "2"],
      call (field (name "T") "run") [], call (field (name "C") "new") [],
      stringCall (name "require") "m"]])).withModule "m.lua"
        (sourceFile [returnStmt [boolean true]])).withGlobal "C"
          (.object "C" [.mk "new" (.ofSignature [] .number)])).withDeclaredType "f"
            (.ofSignature [.number] .string)

theorem made_callers : ∀ tree ∈ callers.files, Made tree := by
  have hcalls : ∀ e ∈ [call (name "f") [number "1"], call (name "g") [number "2"],
      call (field (name "T") "run") [], call (field (name "C") "new") [],
      stringCall (name "require") "m"], Made e := by
    simp only [List.forall_mem_cons, List.not_mem_nil, false_implies, implies_true, and_true]
    exact ⟨.call (.name _) (made_one (.number _)), .call (.name _) (made_one (.number _)),
      .call (.field (.name _) _) (List.forall_mem_nil _),
      .call (.field (.name _) _) (List.forall_mem_nil _), .stringCall (.name _) _⟩
  refine List.forall_mem_cons.2 ⟨.sourceFile ?_, made_one (.sourceFile (made_one
    (.returnStmt (made_one (.boolean _)))))⟩
  simp only [List.forall_mem_cons, List.not_mem_nil, false_implies, implies_true, and_true]
  exact ⟨.localFunction _ _ (made_one (.returnStmt (made_one (.name _)))),
    .localFunction _ _ (made_one (.returnStmt (made_one (made_orElse (.name _) (.number _))))),
    .functionStmt (.field (.name _) _) _ (made_one (.returnStmt (made_one .nil))),
    .returnStmt hcalls⟩

/-- What is composed in the file, by the numbers of the expressions: the types of the calls and of
the name of the function without a declared type. -/
def composed : List (Nat × Ty) :=
  [(7, .string), (10, .union [.unknown, .number]),
    (11, .ofSignature [.unknown] (.union [.unknown, .number])), (13, .nil),
    (16, .union [.number, .ofClass "C"]), (19, .boolean)]

theorem callers_compose :
    composed.Forall fun part => ∃ e, callers.codebase.expr? ⟨0, part.1⟩ = .ok (some e) ∧
      (∀ call ∈ callers.codebase.calls e (.fresh .full none), call.isRefused = false) ∧
      Composition.expr callers.codebase .full (callers.codebase.typeAlone .full) e =
        .ok (callers.codebase.typeAlone .full e) ∧
      (callers.codebase.typeAlone .full e == part.2) = true := by
  have htests : composed.all (fun part => callers.codebase.testAt ⟨0, part.1⟩ fun e =>
      (callers.codebase.calls e (.fresh .full none)).all (!·.isRefused) &&
        callers.codebase.typeAlone .full e == part.2) = true := by
    decide +kernel
  have hclosed := Project.closed made_callers
  refine List.forall_iff_forall_mem.2 ?_
  intro part hpart
  obtain ⟨e, hexpr, he, htest⟩ := hclosed.exists_of_testAt (List.all_eq_true.1 htests part hpart)
  obtain ⟨hcalls, htype⟩ := Bool.and_eq_true_iff.1 htest
  have hunrefused := Call.unrefused_of_all hcalls
  exact ⟨e, hexpr, hunrefused, (callers.composes made_callers .full e he hunrefused).2, htype⟩

end Project

end LuaTypes
