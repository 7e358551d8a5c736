import LuaTypes.Proofs.Inference.Flowing
import LuaTypes.Proofs.Inference.History
import LuaTypes.Proofs.Project.Closed

/-!
# What expressions pass on

Literals, tables, names without a function, parentheses, operators and calls that load modules pass
types on: the type of such an expression is known beforehand, or it is that of another expression,
or two such types are united.

What each form passes on is written out here, operator by operator, and not read off the rules.

* `Codebase.flow`: what an expression of these forms passes on;
* `Codebase.literalType_eq`, `Codebase.firstResult_eq`, `Codebase.typeOfUnary_eq`,
  `Codebase.typeOfBinary_eq`: the rules do the same; `Codebase.typeOf_eq_flow`: the rule of an
  expression passes on just what flows;
* `Codebase.Closed.flow`: it can be read of every expression, and types known beforehand are proper;
* `Codebase.passesOn`: whether an expression passes types on.
-/

namespace LuaTypes

namespace Codebase

variable (codebase : Codebase) (reach : Reach)

/-! ### What expressions pass on -/

/-- A type that is known beforehand. -/
def constantFlow (ty : Ty) : Flow := .one (.type ty)

/-- A part of an expression; a part that is missing is unknown. -/
def partSource (whole : Filed Node) : Option Expr → Source
  | some part => .expr (whole.replace part)
  | none => .type .unknown

/-- An expression passes on one part, if it is found. -/
def partFlow (whole : Filed Node) (found : Reading (Option Expr)) : Reading Flow := do
  return .one (partSource whole (← found))

/-- A literal is known by the first of its tokens that is neither blank nor comment. -/
def literalType (node : Node) : Ty :=
  match (node.tokens.find? (·.kind ∉ [.whitespace, .comment])).map Token.kind with
  | some .nilKw => .nil
  | some .trueKw | some .falseKw => .boolean
  | some .number => .number
  | some .string => .string
  | _ => .unknown

/-- The first of a node's tokens that is one of these operators. -/
def operator (operators : List Kind) (node : Node) : Option Kind :=
  (node.tokens.find? (·.kind ∈ operators)).map Token.kind

/-- The operators that stand before an operand. -/
def unaryOperators : List Kind := [.minus, .notKw, .hash, .tilde]

/-- The operators that stand between two operands. -/
def binaryOperators : List Kind :=
  [.orKw, .andKw, .plus, .minus, .star, .slash, .doubleSlash, .percent, .caret, .amp, .pipe, .tilde,
    .shl, .shr, .concat, .eqEq, .notEq, .lt, .ltEq, .gt, .gtEq]

/-- Minus passes on its operand, a length is a number; of other unary expressions nothing is
known. -/
def unaryFlow (un : Filed Node) : Reading Flow :=
  match operator unaryOperators un.value with
  | some .minus => partFlow un un.value.firstExpr
  | some .hash => return constantFlow .number
  | _ => return constantFlow .unknown

/-- A disjunction passes on both operands, a conjunction the right one, arithmetic and operations on
bits the left one; concatenation gives a string, comparison a truth value. -/
def binaryFlow (bin : Filed Node) : Reading Flow :=
  match operator binaryOperators bin.value with
  | some .orKw => do
    let lhs ← bin.value.firstExpr
    let rhs ← bin.value.secondExpr
    return .both (partSource bin lhs) (partSource bin rhs)
  | some .andKw => partFlow bin bin.value.secondExpr
  | some .plus | some .minus | some .star | some .slash | some .doubleSlash | some .percent
  | some .caret | some .amp | some .pipe | some .tilde | some .shl | some .shr =>
    partFlow bin bin.value.firstExpr
  | some .concat => return constantFlow .string
  | some .eqEq | some .notEq | some .lt | some .ltEq | some .gt | some .gtEq =>
    return constantFlow .boolean
  | _ => return constantFlow .unknown

/-- A name passes on its initializer or its known type; a function is nothing to pass on. -/
def nameFlow (name : Filed Node) : Reading (Option Flow) := do
  match ← codebase.bindingOf name with
  | some (.initializer e) => return some (.one (.expr e))
  | some (.function _) => return none
  | some (.annotated ty) => return some (constantFlow ty)
  | none => return some (constantFlow .unknown)

/-- The node below a node to which the first children of some kinds lead, one below the other. -/
def downTo : List Kind → Node → Reading (Option Node)
  | [], node => return some node
  | kind :: kinds, node => do
    match ← node.childOfKind kind with
    | some child => downTo kinds child
    | none => return none

/-- The first expression in the list of the first return among the statements of a file. -/
def firstResult (source : Node) : Reading (Option Expr) := do
  match ← downTo [.block, .returnStmt, .exprList] source with
  | some list => return (← list.exprs).head?
  | none => return none

/-- A file passes on the first expression that it returns. -/
def exportFlow (file : FileNumber) : Reading Flow :=
  match codebase.root? file with
  | none => return constantFlow .unknown
  | some root => do
    match ← root.ofKind? .sourceFile with
    | none => return constantFlow .unknown
    | some source => partFlow ⟨file, source⟩ (firstResult source)

/-- A call that loads a module passes on what the module's file does. -/
def requireFlow (call : Filed Node) : Reading Flow :=
  match reach with
  | .ownFile => return constantFlow .unknown
  | .full => do
    match ← Call.stringArg call.value with
    | none => return constantFlow .unknown
    | some raw =>
      match ← findModule codebase raw call.file with
      | some found => codebase.exportFlow found.file
      | none => return constantFlow .unknown

/-- Other calls pass nothing on. -/
def callFlow (call : Filed Node) : Reading (Option Flow) := do
  match ← Call.callee call.value with
  | none => return some (constantFlow .unknown)
  | some callee =>
    if codebase.conventions.isLoader (Text.trimmed callee.text) then
      return some (← codebase.requireFlow reach call)
    else return none

/-- What an expression passes on, if it is of a form that passes types on. -/
def flow (e : Filed Expr) : Reading (Option Flow) :=
  let node := e.replace e.value.node
  match e.value.form with
  | .literal => return some (constantFlow (literalType node.value))
  | .name => codebase.nameFlow node
  | .paren => do return some (← partFlow node node.value.firstExpr)
  | .unary => do return some (← unaryFlow node)
  | .binary => do return some (← binaryFlow node)
  | .call => codebase.callFlow reach node
  | .index | .closure => return none
  | .table => return some (constantFlow .unknown)

/-- Whether an expression passes types on. -/
def passesOn (e : Filed Expr) : Bool :=
  match codebase.flow reach e with
  | .ok (some _) => true
  | _ => false

/-! ### Rules pass on just that -/

variable {codebase reach}

theorem exists_flow_of_passesOn {e : Filed Expr} (h : codebase.passesOn reach e = true) :
    ∃ flow, codebase.flow reach e = .ok (some flow) := by
  unfold passesOn at h
  split at h
  · next flow hflow => exact ⟨flow, hflow⟩
  · cases h

theorem typeOfPart_eq (whole : Filed Node) (part : Option Expr) :
    typeOfPart whole part = (partSource whole part).inquiry := by
  cases part <;> rfl

/-- What is read without failure may be gone on with. -/
theorem ofReading_bind {α β : Type} {read : Reading α} {a : α} (h : read = .ok a)
    (f : α → Inquiry β) : ((read : Inquiry α) >>= f) = f a := by
  rw [h]
  rfl

theorem typeOfReadPart_eq {whole : Filed Node} {found : Reading (Option Expr)} {flow : Flow}
    (h : partFlow whole found = .ok flow) :
    (do typeOfPart whole (← found) : Inquiry Ty) = flow.inquiry := by
  obtain ⟨part, hpart, h⟩ := reading_bind_eq_ok.1 h
  cases h
  rw [ofReading_bind hpart]
  exact typeOfPart_eq whole part

theorem literalType_eq (node : Node) : Literal.ty node = literalType node := by
  have hsilent : ∀ kind : Kind, kind.isSilent = decide (kind ∈ [Kind.whitespace, .comment]) :=
    fun kind => by cases kind <;> rfl
  simp only [Literal.ty, Literal.kind?, Literal.token?, literalType, hsilent, decide_not]
  cases node.tokens.find? fun token => !decide (token.kind ∈ [Kind.whitespace, .comment]) with
  | none => rfl
  | some token =>
    obtain ⟨kind, text⟩ := token
    cases kind <;> rfl

/-- The tokens that pass a test are operators if the test is whether they are among these. -/
theorem operator_eq {operators : List Kind} {test : Kind → Bool}
    (h : ∀ kind, test kind = decide (kind ∈ operators)) (node : Node) :
    operator operators node = (node.tokens.find? (test ·.kind)).map Token.kind := by
  simp only [operator, h]

theorem operator_unary (node : Node) :
    operator unaryOperators node = (Unary.op? node).map Token.kind :=
  operator_eq (fun kind => by cases kind <;> rfl) node

theorem operator_binary (node : Node) :
    operator binaryOperators node = (Binary.op? node).map Token.kind :=
  operator_eq (fun kind => by cases kind <;> rfl) node

theorem typeOfUnary_eq {un : Filed Node} {flow : Flow} (h : unaryFlow un = .ok flow) :
    typeOfUnary un = flow.inquiry := by
  rw [unaryFlow, operator_unary] at h
  unfold typeOfUnary
  cases hop : Unary.op? un.value with
  | none =>
    rw [hop] at h
    cases h
    rfl
  | some op =>
    obtain ⟨kind, text⟩ := op
    rw [hop] at h
    cases kind
    case minus => exact typeOfReadPart_eq h
    all_goals
      cases h
      rfl

theorem typeOfBinary_eq {bin : Filed Node} {flow : Flow} (h : binaryFlow bin = .ok flow) :
    typeOfBinary bin = flow.inquiry := by
  rw [binaryFlow, operator_binary] at h
  unfold typeOfBinary
  cases hop : Binary.op? bin.value with
  | none =>
    rw [hop] at h
    cases h
    rfl
  | some op =>
    obtain ⟨kind, text⟩ := op
    rw [hop] at h
    cases kind
    case orKw =>
      obtain ⟨lhs, hlhs, h⟩ := reading_bind_eq_ok.1 h
      obtain ⟨rhs, hrhs, h⟩ := reading_bind_eq_ok.1 h
      cases h
      have hlhs' : Binary.lhs bin.value = .ok lhs := hlhs
      have hrhs' : Binary.rhs bin.value = .ok rhs := hrhs
      simp only [Kind.binaryTyping, ofReading_bind hlhs', ofReading_bind hrhs', typeOfPart_eq,
        Flow.inquiry]
    all_goals first
      | exact typeOfReadPart_eq h
      | cases h; rfl

theorem typeOfName_eq {name : Filed Node} {flow : Flow}
    (h : codebase.nameFlow name = .ok (some flow)) : typeOfName codebase name = flow.inquiry := by
  obtain ⟨binding, hbinding, h⟩ := reading_bind_eq_ok.1 h
  rw [typeOfName, ofReading_bind hbinding]
  cases binding with
  | none =>
    cases h
    rfl
  | some binding => cases binding <;> cases h <;> rfl

theorem firstResult_eq (source : Node) : SourceFile.firstReturned source = firstResult source := by
  simp only [SourceFile.firstReturned, SourceFile.returnStmt, SourceFile.block, firstResult, downTo,
    bind_assoc]
  refine bind_congr fun block => ?_
  cases block with
  | none => rfl
  | some block =>
    simp only [bind_assoc]
    refine bind_congr fun ret => ?_
    cases ret with
    | none => rfl
    | some ret =>
      simp only [ReturnStmt.first, ReturnStmt.exprs, Node.listedExprs]
      cases ret.childOfKind .exprList with
      | error foreign => rfl
      | ok list =>
        rcases list with _ | list
        · rfl
        · show list.exprs.map _ = list.exprs >>= _
          cases list.exprs <;> rfl

theorem typeOfExport_eq {file : FileNumber} {flow : Flow}
    (h : codebase.exportFlow file = .ok flow) : typeOfExport codebase file = flow.inquiry := by
  unfold exportFlow at h
  unfold typeOfExport
  cases hroot : codebase.root? file with
  | none =>
    rw [hroot] at h
    cases h
    rfl
  | some root =>
    rw [hroot] at h
    obtain ⟨source, hsource, h⟩ := reading_bind_eq_ok.1 h
    simp only [ofReading_bind hsource]
    cases source with
    | none =>
      cases h
      rfl
    | some source =>
      rw [← typeOfReadPart_eq h, ← firstResult_eq]
      refine bind_congr fun part => ?_
      cases part <;> rfl

theorem typeOfRequire_eq {call : Filed Node} {flow : Flow}
    (h : codebase.requireFlow reach call = .ok flow) :
    typeOfRequire codebase reach call = flow.inquiry := by
  cases reach with
  | ownFile =>
    cases h
    rfl
  | full =>
    obtain ⟨arg, harg, h⟩ := reading_bind_eq_ok.1 h
    simp only [typeOfRequire, ofReading_bind harg]
    cases arg with
    | none =>
      cases h
      rfl
    | some raw =>
      obtain ⟨found, hfound, h⟩ := reading_bind_eq_ok.1 h
      simp only [ofReading_bind hfound]
      cases found with
      | none =>
        cases h
        rfl
      | some found => exact typeOfExport_eq h

theorem typeOfCall_eq {call : Filed Node} {flow : Flow}
    (h : codebase.callFlow reach call = .ok (some flow)) :
    typeOfCall codebase reach call = flow.inquiry := by
  obtain ⟨callee, hcallee, h⟩ := reading_bind_eq_ok.1 h
  rw [typeOfCall, ofReading_bind hcallee]
  cases callee with
  | none =>
    cases h
    rfl
  | some callee =>
    dsimp only at h ⊢
    split at h
    · next hloader =>
      obtain ⟨flow', hflow, h⟩ := reading_bind_eq_ok.1 h
      cases h
      rw [if_pos hloader]
      exact typeOfRequire_eq hflow
    · cases h

/-- The rule of an expression that passes types on passes on just these. -/
theorem typeOf_eq_flow {e : Filed Expr} {flow : Flow}
    (h : codebase.flow reach e = .ok (some flow)) : typeOf codebase reach e = flow.inquiry := by
  unfold Codebase.flow at h
  unfold typeOf
  cases hform : e.value.form <;> simp only [hform] at h ⊢
  case literal =>
    cases h
    rw [literalType_eq]
    rfl
  case name => exact typeOfName_eq h
  case paren =>
    obtain ⟨flow', hflow, h⟩ := reading_bind_eq_ok.1 h
    cases h
    exact typeOfReadPart_eq hflow
  case unary =>
    obtain ⟨flow', hflow, h⟩ := reading_bind_eq_ok.1 h
    cases h
    exact typeOfUnary_eq hflow
  case binary =>
    obtain ⟨flow', hflow, h⟩ := reading_bind_eq_ok.1 h
    cases h
    exact typeOfBinary_eq hflow
  case call => exact typeOfCall_eq h
  case index => cases h
  case closure => cases h
  case table => cases h; rfl

/-! ### Flows are read without failure -/

/-- The types that a flow passes on by itself are proper. -/
def IsProperFlow (flow : Flow) : Prop := ∀ ty, Source.type ty ∈ flow.sources → ty.isProper = true

theorem isProper_constantFlow {ty : Ty} (h : ty.isProper = true) :
    IsProperFlow (constantFlow ty) := by
  intro ty' hmem
  cases List.mem_singleton.1 hmem
  exact h

theorem isProper_of_partSource {whole : Filed Node} {part : Option Expr} {ty : Ty}
    (h : Source.type ty = partSource whole part) : ty.isProper = true := by
  cases part <;> cases h
  rfl

theorem isProper_both (whole : Filed Node) (first second : Option Expr) :
    IsProperFlow (.both (partSource whole first) (partSource whole second)) := by
  intro ty hmem
  rcases List.mem_cons.1 hmem with hmem | hmem
  · exact isProper_of_partSource hmem
  · exact isProper_of_partSource (List.mem_singleton.1 hmem)

namespace Enclosure

variable {fails : Prop} {codebase : Codebase} {reach : Reach} {S : Filed Node → Prop}

theorem partFlow {P : Option Expr → Prop} {whole : Filed Node} {found : Reading (Option Expr)}
    (h : Reads fails found P) : Reads fails (partFlow whole found) IsProperFlow := by
  refine h.bind fun part _ => .pure fun ty hmem => ?_
  exact isProper_of_partSource (List.mem_singleton.1 hmem)

theorem unaryFlow (h : Enclosure fails codebase reach S (·.isProper = true)) {un : Filed Node}
    (hun : S un) : Reads fails (unaryFlow un) IsProperFlow := by
  unfold Codebase.unaryFlow
  split
  · exact partFlow ((h.nodes un.file).firstExpr hun)
  · exact .pure (isProper_constantFlow rfl)
  · exact .pure (isProper_constantFlow rfl)

theorem binaryFlow (h : Enclosure fails codebase reach S (·.isProper = true)) {bin : Filed Node}
    (hbin : S bin) : Reads fails (binaryFlow bin) IsProperFlow := by
  have hread := h.nodes bin.file
  unfold Codebase.binaryFlow
  split
  case h_1 =>
    exact (hread.firstExpr hbin).bind fun lhs _ => (hread.secondExpr hbin).bind fun rhs _ =>
      .pure (isProper_both bin lhs rhs)
  case h_2 => exact partFlow (hread.secondExpr hbin)
  all_goals first
    | exact partFlow (hread.firstExpr hbin)
    | exact .pure (isProper_constantFlow rfl)

theorem nameFlow (h : Enclosure fails codebase reach S (·.isProper = true)) {name : Filed Node}
    (hname : S name) : Reads fails (codebase.nameFlow name) (Every IsProperFlow) := by
  refine (h.bindingOf hname).bind_option (.pure (every_some (isProper_constantFlow rfl))) ?_
  intro binding hbinding
  cases binding with
  | initializer e => exact .pure (every_some fun ty hmem => by cases List.mem_singleton.1 hmem)
  | function body => exact .pure every_none
  | annotated ty => exact .pure (every_some (isProper_constantFlow hbinding))

/-- What a file returns is looked for from the root of the file. -/
theorem exportFlow (h : Enclosure fails codebase reach S (·.isProper = true)) {file : FileNumber}
    (hfile : ∀ root, codebase.root? file = some root → S ⟨file, root⟩) :
    Reads fails (codebase.exportFlow file) IsProperFlow := by
  have hread := h.nodes file
  unfold Codebase.exportFlow
  split
  · exact .pure (isProper_constantFlow rfl)
  · next root hroot =>
    refine (hread.ofKind? (hfile root hroot) .sourceFile).bind_option ?_ fun source hsource => ?_
    · exact .pure (isProper_constantFlow rfl)
    · dsimp only
      rw [← firstResult_eq]
      exact partFlow (hread.firstReturned hsource)

theorem requireFlow (h : Enclosure fails codebase reach S (·.isProper = true)) {call : Filed Node}
    (hcall : S call) : Reads fails (codebase.requireFlow reach call) IsProperFlow := by
  cases reach with
  | ownFile => exact .pure (isProper_constantFlow rfl)
  | full =>
    refine ((h.nodes call.file).stringArg hcall).bind fun arg _ => ?_
    cases arg with
    | none => exact .pure (isProper_constantFlow rfl)
    | some raw =>
      refine (h.findModule raw call.file).bind fun found _ => ?_
      cases found with
      | none => exact .pure (isProper_constantFlow rfl)
      | some found => exact h.exportFlow (h.root rfl found.file)

theorem callFlow (h : Enclosure fails codebase reach S (·.isProper = true)) {call : Filed Node}
    (hcall : S call) : Reads fails (codebase.callFlow reach call) (Every IsProperFlow) := by
  refine ((h.nodes call.file).firstExpr hcall).bind_option ?_ fun callee _ => ?_
  · exact .pure (every_some (isProper_constantFlow rfl))
  · dsimp only
    split
    · exact (h.requireFlow hcall).bind fun flow hflow => .pure (every_some hflow)
    · exact .pure every_none

/-- Where all types known beforehand are proper, so are those that an expression passes on. -/
theorem flow (h : Enclosure fails codebase reach S (·.isProper = true)) {e : Filed Expr}
    (he : ExprIn S e) : Reads fails (codebase.flow reach e) (Every IsProperFlow) := by
  unfold Codebase.flow
  cases e.value.form <;> dsimp only
  case literal =>
    rw [← literalType_eq]
    exact .pure (every_some (isProper_constantFlow (h.stable.literal _)))
  case name => exact h.nameFlow he
  case paren =>
    exact (partFlow ((h.nodes e.file).firstExpr he)).bind fun flow hflow => .pure (every_some hflow)
  case unary => exact (h.unaryFlow he).bind fun flow hflow => .pure (every_some hflow)
  case binary => exact (h.binaryFlow he).bind fun flow hflow => .pure (every_some hflow)
  case call => exact h.callFlow he
  case index => exact .pure every_none
  case closure => exact .pure every_none
  case table => exact .pure (every_some (isProper_constantFlow rfl))

end Enclosure

/-- What an expression passes on is read without failure, and its types are proper. -/
theorem Closed.flow {codebase : Codebase} (h : codebase.Closed) (hproper : codebase.Proper)
    (reach : Reach) {e : Filed Expr} (he : codebase.HasExpr e) :
    Gives (codebase.flow reach e) (Every IsProperFlow) :=
  ((h.enclosure hproper reach).flow he).gives

end Codebase

end LuaTypes
