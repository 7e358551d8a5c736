import LuaTypes.Inference.Run
import LuaTypes.Project.Links
import LuaTypes.Tree.Listing

/-!
# Sessions

A session puts queries to a codebase one after the other, with one memo for all of them. Each query
is a request of its own and says whether it uses the memo.
-/

namespace LuaTypes

/-- Where in a file an expression is. -/
inductive Place where
  /-- The first expression that the file returns. -/
  | returned
  /-- The expression with a number, in the order of the nodes. -/
  | numbered (number : Nat)
  /-- The expression with a number among those with this text. -/
  | spelled (text : String) (number : Nat)
  deriving DecidableEq, Repr

/-- How a request is made. -/
structure Manner where
  reach : Reach
  memoized : Bool
  deriving DecidableEq, Repr

/-- What may be asked of a session. -/
inductive Query where
  /-- The type of an expression, while others are held under way. -/
  | infer (file : FileNumber) (place : Place) (manner : Manner) (hold : List (FileNumber × Place))
  /-- The types that the rule of an operator, a call or a function gives to an expression that is
  not entered itself. -/
  | direct (file : FileNumber) (place : Place) (manner : Manner)
  /-- The file of a module, as seen from a file. -/
  | resolve (file : FileNumber) (path : String)
  /-- The type of what a file returns. -/
  | exported (file : FileNumber) (manner : Manner)
  /-- The types of all expressions of all files. -/
  | all (manner : Manner)
  /-- What the memo holds of all expressions of all files. -/
  | dump
  | invalidate (file : FileNumber)
  | clear

/-- An expression that is named by its file and reference, and what is said of it. -/
structure Row (α : Type) where
  file : FileNumber
  reference : String
  said : α

/-- What a session answers. -/
inductive Answer where
  | type (ty : Ty) (known : Nat)
  | types (tys : List Ty) (known : Nat)
  | resolved (found : Option FoundModule)
  | listed (rows : List (Row Ty))
  /-- For each expression, what the memo holds of it in full reach and within its file. -/
  | dumped (rows : List (Row (Option Ty × Option Ty)))
  | changed (known : Nat)
  | noFile
  | noExpr

/-- Why a session ends. -/
inductive Breakdown where
  | foreign (kind : ForeignKind)
  | exhausted
  deriving DecidableEq, Repr

/-- A codebase with the memo of its session. -/
structure Session where
  codebase : Codebase
  memo : Memo

namespace Session

/-- A session that has not begun. -/
def start (codebase : Codebase) : Session := ⟨codebase, .empty⟩

/-- What reading a tree gives to a session. -/
def read {α : Type} : Reading α → Except Breakdown α :=
  Except.mapError .foreign

/-- The outcome of looking for an expression. -/
inductive Located where
  | found (e : Filed Expr)
  | noFile
  | noExpr

/-- An expression, if it has this text. -/
def spelled? (text : String) (node : Node) : Reading (Option Expr) := do
  return (← node.expr?).filter (·.text = text)

/-- The first expression that a file returns. -/
def returned (root : Node) : Reading (Option Expr) := do
  match ← root.ofKind? .sourceFile with
  | none => return none
  | some root => SourceFile.firstReturned root

/-- Looks for the expression at a place of a file. -/
def locate (session : Session) (file : FileNumber) (place : Place) : Reading Located := do
  match session.codebase.root? file with
  | none => return .noFile
  | some root =>
    let e ← match place with
      | .returned => returned root
      | .numbered number => hitAt Node.expr? number root.preorder
      | .spelled text number => hitAt (spelled? text) number root.preorder
    match e with
    | some e => return .found ⟨file, e⟩
    | none => return .noExpr

/-- Puts expressions under way one inside the other; a refused one is skipped. -/
def holdAll (trail : Trail) (held : List (Filed Expr)) : Trail :=
  held.foldl (fun trail e =>
    match trail.enter (Expr.key e) with
    | .entered trail => trail
    | .refused trail => trail) trail

/-- The state in which a request begins. -/
def begin (session : Session) (manner : Manner) (held : List (Filed Expr)) : State where
  trail := holdAll (.fresh manner.reach) held
  memo := if manner.memoized then some session.memo else none

/-- The session after a request. -/
def after (session : Session) (state : State) : Session :=
  { session with memo := state.memo.getD session.memo }

/-- Answers an inquiry as a request, with expressions held under way. -/
def request {α : Type} (session : Session) (manner : Manner) (held : List (Filed Expr))
    (inquiry : Inquiry α) : Except Breakdown (α × Session) :=
  match session.codebase.answer inquiry (session.begin manner held) with
  | (.value value, state) => .ok (value, session.after state)
  | (.failed foreign, _) => .error (.foreign foreign)
  | (.exhausted, _) => .error .exhausted

/-- Looks for expressions; the first that is not found decides. -/
def locateAll (session : Session) :
    List (FileNumber × Place) → Reading (Except Answer (List (Filed Expr)))
  | [] => return .ok []
  | (file, place) :: rest => do
    match ← session.locate file place with
    | .noFile => return .error .noFile
    | .noExpr => return .error .noExpr
    | .found e => return (← session.locateAll rest).map (e :: ·)

/-- The inquiries made of an expression that is not entered itself. -/
def directInquiry (codebase : Codebase) (reach : Reach) (e : Filed Expr) : Inquiry (List Ty) := do
  let node := e.replace e.value.node
  match e.value.form with
  | .unary => return [← typeOfUnary node]
  | .binary => return [← typeOfBinary node]
  | .call => return [← typeOfCall codebase reach node]
  | .closure =>
    match ← Closure.body node.value with
    | none => return []
    | some body =>
      let ty ← typeOfBody codebase (node.replace body)
      let ret ← typeOfReturns (node.replace body)
      return [ty, ret]
  | _ => return []

/-- The expressions of all files, in order. -/
def everyExpr (codebase : Codebase) : Reading (List (Filed Expr)) := do
  let perFile ← (List.range codebase.files.length).mapM fun file => do
    return (← hits Node.expr? (codebase.nodes file)).map fun e => (⟨file, e⟩ : Filed Expr)
  return perFile.flatten

/-- An expression with what is said of it. -/
def row {α : Type} (e : Filed Expr) (said : α) : Row α where
  file := e.file
  reference := reference e.value.form.kind e.value.node.start e.value.node.width
  said := said

/-- Infers expressions one after the other, each as a request of its own. -/
def inferEach (session : Session) (manner : Manner) :
    List (Filed Expr) → Except Breakdown (List (Row Ty) × Session)
  | [] => .ok ([], session)
  | e :: rest => do
    let (ty, session) ← session.request manner [] (.typeOf e)
    let (rows, session) ← session.inferEach manner rest
    return (row e ty :: rows, session)

/-- Answers one query. -/
def answer (session : Session) : Query → Except Breakdown (Answer × Session)
  | .infer file place manner hold => do
    match ← read (session.locate file place) with
    | .noFile => return (.noFile, session)
    | .noExpr => return (.noExpr, session)
    | .found e =>
      match ← read (session.locateAll hold) with
      | .error answer => return (answer, session)
      | .ok held =>
        let (ty, session) ← session.request manner held (.typeOf e)
        return (.type ty session.memo.size, session)
  | .direct file place manner => do
    match ← read (session.locate file place) with
    | .noFile => return (.noFile, session)
    | .noExpr => return (.noExpr, session)
    | .found e =>
      let (tys, session) ← session.request manner [] (directInquiry session.codebase manner.reach e)
      return (.types tys session.memo.size, session)
  | .resolve file path => do
    return (.resolved (← read (findModule session.codebase path file)), session)
  | .exported file manner => do
    let (ty, session) ← session.request manner [] (typeOfExport session.codebase file)
    return (.type ty session.memo.size, session)
  | .all manner => do
    let (rows, session) ← session.inferEach manner (← read (everyExpr session.codebase))
    return (.listed rows, session)
  | .dump => do
    let known (e : Filed Expr) (reach : Reach) := session.memo.get? ⟨Expr.key e, reach⟩
    let rows := (← read (everyExpr session.codebase)).map fun e =>
      row e (known e .full, known e .ownFile)
    return (.dumped rows, session)
  | .invalidate file =>
    let session := { session with memo := session.memo.invalidate file }
    return (.changed session.memo.size, session)
  | .clear =>
    let session := { session with memo := .empty }
    return (.changed session.memo.size, session)

end Session

end LuaTypes
