import LuaTypes.Inference.CallResult
import LuaTypes.Inference.Codebase
import LuaTypes.Inference.Inquiry
import LuaTypes.Inference.Operator
import LuaTypes.Inference.Trail
import LuaTypes.Module.Name
import LuaTypes.Tree.Statement
import LuaTypes.Ty.Join

/-!
# Typing rules

One inquiry per form of expression: which expressions it asks about, in which order, and what it
makes of the answers. Whatever cannot be known is unknown.

* `typeOfUnary`, `typeOfBinary`, `typeOfIndex` look at the parts of the expression;
* `typeOfName`, `typeOfBody`, `typeOfReturns`, `typeOfCall` follow what names refer to;
* `findModule`, `typeOfExport`, `typeOfRequire` follow modules into their files;
* `typeOf` chooses the rule of an expression.
-/

namespace LuaTypes

/-- The type of a part of an expression; a part that is missing is unknown. -/
def typeOfPart (whole : Filed Node) : Option Expr → Inquiry Ty
  | some part => .typeOf (whole.replace part)
  | none => return .unknown

/-- The type of a unary expression. -/
def typeOfUnary (un : Filed Node) : Inquiry Ty :=
  match Unary.op? un.value with
  | none => return .unknown
  | some op =>
    match op.kind.unaryTyping with
    | .operand => do typeOfPart un (← Unary.operand un.value)
    | .number => return .number
    | .unknown => return .unknown

/-- The type of a binary expression. -/
def typeOfBinary (bin : Filed Node) : Inquiry Ty :=
  match Binary.op? bin.value with
  | none => return .unknown
  | some op =>
    match op.kind.binaryTyping with
    | .rightOperand => do typeOfPart bin (← Binary.rhs bin.value)
    | .leftOperand => do typeOfPart bin (← Binary.lhs bin.value)
    | .eitherOperand => do
      let lhs ← typeOfPart bin (← Binary.lhs bin.value)
      let rhs ← typeOfPart bin (← Binary.rhs bin.value)
      return lhs.join rhs
    | rule => return rule.constant?.getD .unknown

/-- The declared types of a member on every class that a type may be. -/
def memberType (base : Ty) (name : String) : Ty :=
  Ty.joinAll (base.alternatives.filterMap (Ty.member? name))

/-- The type of a member of an object. -/
def typeOfIndex (index : Filed Node) : Inquiry Ty := do
  let base ← Index.base index.value
  let name ← Index.memberName index.value
  match base, name with
  | some base, some name => return memberType (← .typeOf (index.replace base)) name
  | _, _ => return .unknown

/-- What a return yields: its first expression, or nil. -/
def typeOfReturn (file : FileNumber) (ret : Node) : Inquiry Ty := do
  match ← ReturnStmt.first ret with
  | some e => .typeOf ⟨file, e⟩
  | none => return .nil

/-- The types of what returns yield, one after the other. -/
def typesOfReturns (file : FileNumber) : List Node → Inquiry (List Ty)
  | [] => return []
  | ret :: rest => do
    let ty ← typeOfReturn file ret
    let tys ← typesOfReturns file rest
    return ty :: tys

/-- What calling a body yields: the union over its own returns, unknown if it has none. -/
def typeOfReturns (body : Filed Node) : Inquiry Ty := do
  let returns ← Body.returns body.value
  return Ty.joinAll (← typesOfReturns body.file returns)

/-- The type of the function with a body: declared, or found from its parameters and returns. -/
def typeOfBody (codebase : Codebase) (body : Filed Node) : Inquiry Ty := do
  match ← codebase.declaredType body with
  | some ty => return ty
  | none =>
    let params ← Body.params body.value
    let ret ← typeOfReturns body
    return Ty.ofSignature (List.replicate params.length .unknown) ret

/-- The type of a function without a name. -/
def typeOfClosure (codebase : Codebase) (closure : Filed Node) : Inquiry Ty := do
  match ← Closure.body closure.value with
  | some body => typeOfBody codebase (closure.replace body)
  | none => return .unknown

/-- The type of a name in use. -/
def typeOfName (codebase : Codebase) (name : Filed Node) : Inquiry Ty := do
  match ← codebase.bindingOf name with
  | some (.initializer e) => .typeOf e
  | some (.function body) => typeOfBody codebase body
  | some (.annotated ty) => return ty
  | none => return .unknown

/-! ### Modules -/

/-- A module's file with the path under which it was found. -/
structure FoundModule where
  file : FileNumber
  path : String
  deriving DecidableEq, Repr

/-- The module that a program in a file asks for: the first pattern that leads to a file. -/
def findModule (codebase : Codebase) (raw : String) (origin : FileNumber) :
    Reading (Option FoundModule) :=
  match Module.requested raw with
  | none => .ok none
  | some name =>
    firstHit (fun pattern =>
      let path := Module.expanded pattern name
      (codebase.moduleFile path origin).map fun file => file.map fun file => ⟨file, path⟩)
      codebase.conventions.candidates

/-- The type of what a file returns. -/
def typeOfExport (codebase : Codebase) (file : FileNumber) : Inquiry Ty :=
  match codebase.root? file with
  | none => return .unknown
  | some root => do
    match ← root.ofKind? .sourceFile with
    | none => return .unknown
    | some root =>
      match ← SourceFile.firstReturned root with
      | some e => .typeOf ⟨file, e⟩
      | none => return .unknown

/-- The type of a call that loads a module. -/
def typeOfRequire (codebase : Codebase) (reach : Reach) (call : Filed Node) : Inquiry Ty :=
  match reach with
  | .ownFile => return .unknown
  | .full => do
    match ← Call.stringArg call.value with
    | none => return .unknown
    | some raw =>
      match ← findModule codebase raw call.file with
      | some found => typeOfExport codebase found.file
      | none => return .unknown

/-! ### Calls -/

/-- The type of the object whose constructor is called, if a constructor is. -/
def typeOfOwner (codebase : Codebase) (callee : Filed Expr) : Inquiry (Option Ty) :=
  match callee.value.form with
  | .index => do
    match ← Index.memberName callee.value.node with
    | none => return none
    | some name =>
      if codebase.conventions.isConstructor name then
        match ← Index.base callee.value.node with
        | some base => return some (← .typeOf (callee.replace base))
        | none => return none
      else return none
  | _ => return none

/-- The type that the callee's type gives, or else what its declared body yields. -/
def typeOfCallee (codebase : Codebase) (call : Filed Node) (callee : Ty) : Inquiry Ty :=
  if (Call.direct callee).isUnknown then do
    match ← codebase.calledBody call with
    | some body => typeOfReturns body
    | none => return Call.direct callee
  else return Call.direct callee

/-- The type of a call. -/
def typeOfCall (codebase : Codebase) (reach : Reach) (call : Filed Node) : Inquiry Ty := do
  match ← Call.callee call.value with
  | none => return .unknown
  | some callee =>
    if codebase.conventions.isLoader (Text.trimmed callee.text) then
      typeOfRequire codebase reach call
    else
      let ty ← typeOfCallee codebase call (← .typeOf (call.replace callee))
      match ← typeOfOwner codebase (call.replace callee) with
      | some owner => return Call.withOwner ty owner
      | none => return ty

/-! ### Expressions -/

/-- The rule of an expression. -/
def typeOf (codebase : Codebase) (reach : Reach) (e : Filed Expr) : Inquiry Ty :=
  let node := e.replace e.value.node
  match e.value.form with
  | .literal => return Literal.ty node.value
  | .name => typeOfName codebase node
  | .paren => do typeOfPart node (← Paren.inner node.value)
  | .unary => typeOfUnary node
  | .binary => typeOfBinary node
  | .call => typeOfCall codebase reach node
  | .index => typeOfIndex node
  | .closure => typeOfClosure codebase node
  | .table => return .unknown

end LuaTypes
