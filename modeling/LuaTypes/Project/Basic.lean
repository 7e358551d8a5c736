import LuaTypes.Dict
import LuaTypes.Inference.Codebase
import LuaTypes.Module.Registry
import LuaTypes.Tree.Statement

/-!
# Projects

A project is a codebase that keeps its files in memory. Names are looked up from the inside out: the
last declaration in an enclosing block that begins no later than the use, then a global, then a
function declared anywhere in the file. A name in its own initializer refers to the declaration
that it stands in.
-/

namespace LuaTypes

/-- Files with what is declared about them. -/
structure Project where
  files : List Tree
  modules : Registry
  /-- The types of globals, by name. -/
  globals : Dict String Ty
  /-- The declared types of functions, by the name or path they are declared under. -/
  declaredTypes : Dict String Ty
  conventions : Conventions

namespace Project

/-- The project without files. -/
def empty (conventions : Conventions) : Project := ⟨[], .empty, .empty, .empty, conventions⟩

/-- The number of the file that is added next. -/
def nextFile (project : Project) : FileNumber := project.files.length

/-- The project with one more file, which is no module. -/
def withFile (project : Project) (tree : Tree) : Project :=
  { project with files := project.files ++ [tree] }

/-- The project with one more file, registered as a module under its path. -/
def withModule (project : Project) (path : String) (tree : Tree) : Project :=
  { project.withFile tree with modules := project.modules.register project.nextFile path }

/-- The project with the type of a global declared. -/
def withGlobal (project : Project) (name : String) (ty : Ty) : Project :=
  { project with globals := project.globals.insert name ty }

/-- The project with the type of a function declared. -/
def withDeclaredType (project : Project) (name : String) (ty : Ty) : Project :=
  { project with declaredTypes := project.declaredTypes.insert name ty }

/-! ### Declarations in blocks -/

/-- What a list of declared names and their initializers says of a name: the last of that name
counts, and begins as nil without an initializer. -/
def declaredLocally (file : FileNumber) (name : String) (stmt : Node) :
    Reading (Option Binding) := do
  let names ← LocalStmt.names stmt
  match (names.zipIdx.filter fun declared => Name.name? declared.1 = some name).getLast? with
  | none => return none
  | some declared =>
    match ← LocalStmt.initializer stmt declared.2 with
    | some e => return some (.initializer ⟨file, e⟩)
    | none => return some (.annotated .nil)

/-- What the declaration of a function in a block says of a name. -/
def declaredFunction (file : FileNumber) (name : String) (stmt : Node) :
    Reading (Option Binding) := do
  if (← LocalFunction.name stmt).bind Name.name? = some name then
    return (← stmt.body).map fun body => .function ⟨file, body⟩
  else return none

/-- What a statement declares a name to be. -/
def declaredBy (file : FileNumber) (name : String) (stmt : Node) : Reading (Option Binding) := do
  match ← stmt.kind with
  | .localStmt => declaredLocally file name stmt
  | .localFuncStmt => declaredFunction file name stmt
  | _ => return none

/-- The last of the statements that begin no later than `offset` to declare a name; `found` is what
the statements before them declare. Later statements are not looked at. -/
def lastBinding (file : FileNumber) (name : String) (offset : Nat) (found : Option Binding) :
    List Node → Reading (Option Binding)
  | [] => return found
  | node :: rest => do
    match ← node.stmt? with
    | none => lastBinding file name offset found rest
    | some stmt =>
      if offset < stmt.start then return found
      else
        let declared ← declaredBy file name stmt
        lastBinding file name offset (declared.or found) rest

/-- What a name refers to in the blocks around it, the innermost first. -/
def enclosingBinding (name : Filed Node) (text : String) : Reading (Option Binding) :=
  firstHit (fun node => do
    match ← node.ofKind? .block with
    | none => return none
    | some block =>
      lastBinding name.file text name.value.start none block.children) name.value.ancestors

/-! ### Functions of a file -/

/-- Whether a node declares a function under this name or path, and its body if it has one. -/
def declaresFunction (target : String) (node : Node) : Reading (Option (Option Node)) := do
  match ← node.kind with
  | .funcStmt =>
    if (← FunctionStmt.target node).map (·.text) = some target then return some (← node.body)
    else return none
  | .localFuncStmt =>
    if (← LocalFunction.name node).bind Name.name? = some target then return some (← node.body)
    else return none
  | _ => return none

/-- The body of the first function among nodes that is declared under a name or path. -/
def bodyDeclaredAs (nodes : List Node) (target : String) : Reading (Option Node) :=
  (firstHit (declaresFunction target) nodes).map Option.join

/-- The name or path under which the function with a body is declared. -/
def declaredPath (body : Node) : Reading (Option String) := do
  match body.parent? with
  | none => return none
  | some owner =>
    match ← owner.kind with
    | .funcStmt => return (← FunctionStmt.target owner).map (·.text)
    | .localFuncStmt => return (← LocalFunction.name owner).bind Name.name?
    | _ => return none

/-! ### The codebase -/

/-- The nodes of every file. They are listed once and searched again and again. -/
def listings (project : Project) : List (List Node) := project.files.map Tree.nodes

/-- The body of the first function of a file that is declared under a name or path. -/
def functionIn (listings : List (List Node)) (file : FileNumber) (target : String) :
    Reading (Option (Filed Node)) :=
  match listings[file]? with
  | none => return none
  | some nodes => do return (← bodyDeclaredAs nodes target).map fun body => ⟨file, body⟩

/-- What a name in use refers to. -/
def bindingOf (globals : Dict String Ty) (listings : List (List Node)) (name : Filed Node) :
    Reading (Option Binding) :=
  match Name.name? name.value with
  | none => return none
  | some text => do
    match ← enclosingBinding name text with
    | some binding => return some binding
    | none =>
      match globals.get? text with
      | some ty => return some (.annotated ty)
      | none => return (← functionIn listings name.file text).map .function

/-- The body of the function that a call's callee is the name or path of. -/
def calledBody (listings : List (List Node)) (call : Filed Node) :
    Reading (Option (Filed Node)) := do
  match ← Call.callee call.value with
  | none => return none
  | some callee => functionIn listings call.file callee.text

/-- The declared type of the function with a body. -/
def declaredType (project : Project) (body : Filed Node) : Reading (Option Ty) := do
  match ← declaredPath body.value with
  | none => return none
  | some path => return project.declaredTypes.get? path

/-- A project as a codebase. -/
def codebase (project : Project) : Codebase :=
  let listings := project.listings
  { files := project.files
    conventions := project.conventions
    moduleFile := fun path _ => return project.modules.fileOf? path
    bindingOf := bindingOf project.globals listings
    calledBody := calledBody listings
    declaredType := project.declaredType }

end Project

end LuaTypes
